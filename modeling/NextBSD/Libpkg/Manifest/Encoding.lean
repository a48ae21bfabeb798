import NextBSD.Libpkg.Manifest.Emit

/-!
# Strings and numbers in a manifest

What `url_decode`, `getmode` and `strtoll` make of what the emission writes.
-/

namespace NextBSD.Libpkg.Manifest

open Digits

/-! ## Percent encoding -/

theorem isxdigit_hexDigit {n : Nat} (h : n < 16) : isxdigit (hexDigit n) = true := by
  have hall : ∀ n : Fin 16, isxdigit (hexDigit n) = true := by decide
  exact hall ⟨n, h⟩

theorem hexval_hexDigit (c : UInt8) :
    hexval (hexDigit (c.toNat / 16)) <<< 4 ||| hexval (hexDigit (c.toNat % 16)) = c := by
  have hall : ∀ n : Fin 256, hexval (hexDigit (n.val / 16)) <<< 4 |||
      hexval (hexDigit (n.val % 16)) = UInt8.ofNat n.val := by decide +kernel
  have hc := hall ⟨c.toNat, c.toNat_lt⟩
  rw [UInt8.ofNat_toNat] at hc
  exact hc

theorem decodeBytes_cons {c : UInt8} (h : c ≠ 37) (s : Bytes) :
    decodeBytes (c :: s) = c :: decodeBytes s := by
  cases s with
  | nil => rfl
  | cons c1 s =>
    cases s with
    | nil => rfl
    | cons c2 rest =>
      rw [decodeBytes, if_neg (fun hpct => h hpct.1)]

theorem decodeBytes_percent (c : UInt8) (s : Bytes) :
    decodeBytes (37 :: hexDigit (c.toNat / 16) :: hexDigit (c.toNat % 16) :: s) =
      c :: decodeBytes s := by
  have hc : c.toNat < 256 := c.toNat_lt
  have hhigh : isxdigit (hexDigit (c.toNat / 16)) = true := isxdigit_hexDigit (by omega)
  have hlow : isxdigit (hexDigit (c.toNat % 16)) = true := isxdigit_hexDigit (by omega)
  rw [decodeBytes, if_pos ⟨rfl, hhigh, hlow⟩, hexval_hexDigit]

theorem isPlain_iff {c : UInt8} : isPlain c = true ↔ c < 128 ∧ c ≠ 37 := by
  simp [isPlain]

theorem decodeBytes_encodeByte (c : UInt8) (s : Bytes) :
    decodeBytes (encodeByte c ++ s) = c :: decodeBytes s := by
  unfold encodeByte
  by_cases hplain : isPlain c = true
  · rw [if_pos hplain]
    exact decodeBytes_cons (isPlain_iff.mp hplain).2 s
  · rw [if_neg hplain]
    exact decodeBytes_percent c s

theorem decodeBytes_urlencode (s : Bytes) : decodeBytes (urlencode s) = s := by
  induction s with
  | nil => rfl
  | cons c s ih =>
    show decodeBytes (encodeByte c ++ urlencode s) = c :: s
    rw [decodeBytes_encodeByte, ih]

theorem urlDecode_urlencode {s : Bytes} (h : 0 ∉ s) : urlDecode (urlencode s) = s := by
  unfold urlDecode
  rw [decodeBytes_urlencode]
  refine List.takeWhile_eq_self_iff.mpr (fun c hc => ?_)
  have hne : c ≠ 0 := fun hzero => h (hzero ▸ hc)
  exact decide_eq_true hne

theorem urlencode_injective : Function.Injective urlencode :=
  Function.LeftInverse.injective decodeBytes_urlencode

theorem urlencode_cons (c : UInt8) (s : Bytes) : urlencode (c :: s) = encodeByte c ++ urlencode s :=
  rfl

theorem urlencode_of_plain {s : Bytes} (h : s.all isPlain = true) : urlencode s = s := by
  induction s with
  | nil => rfl
  | cons c s ih =>
    rw [List.all_cons, Bool.and_eq_true] at h
    rw [urlencode_cons, ih h.2, encodeByte, if_pos h.1]
    rfl

theorem length_le_urlencode (s : Bytes) : s.length ≤ (urlencode s).length := by
  induction s with
  | nil => exact Nat.le_refl 0
  | cons c s ih =>
    rw [urlencode_cons, List.length_append, List.length_cons]
    have hbyte : 1 ≤ (encodeByte c).length := by
      unfold encodeByte
      split_ifs
      · exact Nat.le_refl 1
      · show 1 ≤ 3
        omega
    omega

theorem length_lt_urlencode {s : Bytes} (h : ¬ s.all isPlain = true) :
    s.length < (urlencode s).length := by
  induction s with
  | nil => exact absurd rfl h
  | cons c s ih =>
    have htail := length_le_urlencode s
    rw [List.all_cons, Bool.and_eq_true] at h
    rw [urlencode_cons, List.length_append, List.length_cons, encodeByte]
    by_cases hplain : isPlain c = true
    · have hs := ih (fun hs => h ⟨hplain, hs⟩)
      rw [if_pos hplain]
      show s.length + 1 < 1 + _
      omega
    · rw [if_neg hplain]
      show s.length + 1 < 3 + _
      omega

def Unpadded (s : Bytes) : Prop := s.head?.any isBlank = false ∧ s.getLast?.any isBlank = false

theorem trim_of_unpadded {s : Bytes} (h : Unpadded s) : trim s = s := by
  have hfront : s.dropWhile isBlank = s := by
    cases s with
    | nil => rfl
    | cons c s =>
      have hc : isBlank c = false := h.1
      rw [List.dropWhile_cons, if_neg (by rw [hc]; exact Bool.false_ne_true)]
  unfold trim
  rw [hfront]
  cases s using List.reverseRecOn with
  | nil => rfl
  | append_singleton s c =>
    have hc : isBlank c = false := by simpa [Unpadded] using h.2
    rw [List.rdropWhile_concat, if_neg (by rw [hc]; exact Bool.false_ne_true)]

theorem head_encodeByte (c : UInt8) (s : Bytes) :
    (encodeByte c ++ s).head?.any isBlank = isBlank c := by
  unfold encodeByte
  by_cases hplain : isPlain c = true
  · rw [if_pos hplain]
    rfl
  · rw [if_neg hplain]
    have hall : ∀ n : Fin 256, isPlain (UInt8.ofNat n.val) = false →
        isBlank (UInt8.ofNat n.val) = false := by decide +kernel
    have hc := hall ⟨c.toNat, c.toNat_lt⟩
    rw [UInt8.ofNat_toNat] at hc
    exact (hc (Bool.eq_false_iff.mpr hplain)).symm

theorem isBlank_hexDigit {n : Nat} (h : n < 16) : isBlank (hexDigit n) = false := by
  have hall : ∀ n : Fin 16, isBlank (hexDigit n) = false := by decide
  exact hall ⟨n, h⟩

theorem getLast_encodeByte (c : UInt8) (s : Bytes) :
    (s ++ encodeByte c).getLast?.any isBlank = isBlank c := by
  have hfront := head_encodeByte c []
  rw [List.append_nil] at hfront
  unfold encodeByte at *
  by_cases hplain : isPlain c = true
  · rw [if_pos hplain]
    simp
  · rw [if_neg hplain] at *
    have hlow : isBlank (hexDigit (c.toNat % 16)) = false := isBlank_hexDigit (by omega)
    have hc : isBlank c = false := by
      rw [← hfront]
      rfl
    simp [hlow, hc]

theorem unpadded_urlencode {s : Bytes} (h : Unpadded s) : Unpadded (urlencode s) := by
  constructor
  · cases s with
    | nil => rfl
    | cons c s =>
      rw [urlencode_cons, head_encodeByte]
      exact h.1
  · cases s using List.reverseRecOn with
    | nil => rfl
    | append_singleton s c =>
      have hlast : isBlank c = false := by simpa [Unpadded] using h.2
      have happend : urlencode (s ++ [c]) = urlencode s ++ encodeByte c := by
        unfold urlencode
        rw [List.flatMap_append, List.flatMap_singleton]
      rw [happend, getLast_encodeByte]
      exact hlast

theorem urlDecode_trim_urlencode {s : Bytes} (hnul : 0 ∉ s) (h : Unpadded s) :
    urlDecode (trim (urlencode s)) = s := by
  rw [trim_of_unpadded (unpadded_urlencode h), urlDecode_urlencode hnul]

theorem byteDigit_digitByte {d : Nat} (h : d < 10) : byteDigit (digitByte d) = d := by
  have hall : ∀ d : Fin 10, byteDigit (digitByte d) = d := by decide
  exact hall ⟨d, h⟩

theorem map_byteDigit {l : List Nat} (h : ∀ d ∈ l, d < 10) :
    (l.map digitByte).map byteDigit = l := by
  rw [List.map_map]
  exact (List.map_congr_left (fun d hd => byteDigit_digitByte (h d hd))).trans (List.map_id l)

theorem octalDigits_lt {perm d : Nat} (h : d ∈ octalDigits perm) : d < 8 := by
  have hdigits : ∀ d ∈ List.replicate (4 - (printDigits 8 perm).length) 0 ++ printDigits 8 perm,
      d < 8 := by
    intro d hd
    cases List.mem_append.mp hd with
    | inl hzero =>
      rw [List.eq_of_mem_replicate hzero]
      omega
    | inr hprint => exact printDigits_lt (by omega) hprint
  unfold octalDigits at h
  dsimp only at h
  split_ifs at h with hhead
  · exact hdigits d h
  · cases List.mem_cons.mp h with
    | inl hzero => omega
    | inr hd => exact hdigits d hd

theorem head_octalDigits (perm : Nat) : (octalDigits perm).head? = some 0 := by
  unfold octalDigits
  dsimp only
  by_cases hhead : (List.replicate (4 - (printDigits 8 perm).length) 0 ++
      printDigits 8 perm).head? = some 0
  · rw [if_pos hhead, hhead]
  · rw [if_neg hhead]
    rfl

theorem readDigits_octalDigits (perm : Nat) : readDigits 8 (octalDigits perm) = perm := by
  unfold octalDigits
  dsimp only
  have hread := (readDigits_zeros 8 (4 - (printDigits 8 perm).length) (printDigits 8 perm)).trans
    (readDigits_printDigits 8 perm)
  split_ifs
  · exact hread
  · exact (readDigits_zeros 8 1 _).trans hread

theorem length_octalDigits_le {perm : Nat} (h : perm < 4096) : (octalDigits perm).length ≤ 5 := by
  have hlen : (printDigits 8 perm).length ≤ 4 := length_printDigits_le (by omega) (by omega)
  unfold octalDigits
  dsimp only
  split_ifs
  · rw [List.length_append, List.length_replicate]
    omega
  · rw [List.length_cons, List.length_append, List.length_replicate]
    omega

theorem getmode_permStr (sys : System) (perm : Nat) :
    getmode sys (permStr perm) =
      if readDigits 8 ((octalDigits perm).take 5) ≤ 4095 then
        some (readDigits 8 ((octalDigits perm).take 5)) else none := by
  have hdigits : ∀ d ∈ (octalDigits perm).take 5, d < 8 := fun d hd =>
    octalDigits_lt (List.mem_of_mem_take hd)
  have hhead : (permStr perm).head?.any isDigitByte = true := by
    unfold permStr
    rw [List.head?_map, List.head?_take, if_neg (by omega), head_octalDigits]
    rfl
  have hall : (permStr perm).all (fun c => 48 ≤ c && c ≤ 55) = true := by
    have hbyte : ∀ d : Fin 8, (48 ≤ digitByte d && digitByte d ≤ 55) = true := by decide
    unfold permStr
    rw [List.all_map, List.all_eq_true]
    exact fun d hd => hbyte ⟨d, hdigits d hd⟩
  have hmap : (permStr perm).map byteDigit = (octalDigits perm).take 5 :=
    map_byteDigit (fun d hd => by have := hdigits d hd; omega)
  unfold getmode
  rw [if_pos hhead, if_pos hall, hmap]

def shownPerm (perm : Nat) : Nat :=
  if readDigits 8 ((octalDigits perm).take 5) ≤ 4095 then
    readDigits 8 ((octalDigits perm).take 5) else 0

theorem shownPerm_eq_iff {perm : Nat} : shownPerm perm = perm ↔ perm < 4096 := by
  unfold shownPerm
  constructor
  · intro h
    split_ifs at h <;> omega
  · intro h
    rw [List.take_of_length_le (length_octalDigits_le h), readDigits_octalDigits, if_pos (by omega)]

theorem strtoll_decimal {i : Int} (h : 0 < i) (hmax : i < 2 ^ 63) : strtoll (decimal i) = i := by
  have hdigits : ∀ d ∈ printDigits 10 i.natAbs, d < 10 := fun d hd => printDigits_lt (by omega) hd
  have hbyte : ∀ d : Fin 10, isDigitByte (digitByte d) = true ∧ isBlank (digitByte d) = false ∧
      digitByte d ≠ 45 ∧ digitByte d ≠ 43 := by decide
  have hprint : decimal i = (printDigits 10 i.natAbs).map digitByte := by
    unfold decimal
    rw [if_neg (by omega), if_neg (by omega)]
    rfl
  have hblank : (decimal i).dropWhile isBlank = decimal i := by
    rw [hprint]
    cases hl : printDigits 10 i.natAbs with
    | nil => rfl
    | cons d l =>
      have hd := hbyte ⟨d, hdigits d (by rw [hl]; exact List.mem_cons_self)⟩
      rw [List.map_cons, List.dropWhile_cons, if_neg (by rw [hd.2.1]; exact Bool.false_ne_true)]
  have hsign : (decimal i).head? ≠ some 45 ∧ (decimal i).head? ≠ some 43 := by
    rw [hprint]
    cases hl : printDigits 10 i.natAbs with
    | nil => exact ⟨nofun, nofun⟩
    | cons d l =>
      have hd := hbyte ⟨d, hdigits d (by rw [hl]; exact List.mem_cons_self)⟩
      exact ⟨fun h => hd.2.2.1 (Option.some.inj h), fun h => hd.2.2.2 (Option.some.inj h)⟩
  have htake : (decimal i).takeWhile isDigitByte = decimal i := by
    rw [hprint]
    refine List.takeWhile_eq_self_iff.mpr (fun c hc => ?_)
    obtain ⟨d, hd, rfl⟩ := List.mem_map.mp hc
    exact (hbyte ⟨d, hdigits d hd⟩).1
  unfold strtoll
  dsimp only
  rw [hblank, if_neg hsign.1, if_neg (not_or.mpr hsign), htake, hprint, map_byteDigit hdigits,
    readDigits_printDigits]
  omega

end NextBSD.Libpkg.Manifest
