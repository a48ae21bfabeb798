import Mathlib
import NextBSD.Iolog.ReadJson

/-!
# Strings that are written and read

The reader looks for the closing quote and steps over a quote only behind a backslash, whatever
that backslash means.  It finds the quote that the writer put unless the string ends in a
backslash.
-/

namespace NextBSD.Iolog

theorem forall_byte {P : UInt8 → Prop} (h : ∀ n : Fin 256, P (UInt8.ofNat n.val)) (c : UInt8) :
    P c := by
  have hc := h ⟨c.toNat, c.toNat_lt⟩
  rw [UInt8.ofNat_toNat] at hc
  exact hc

theorem sudoHexchar_hexDigit : ∀ c : UInt8,
    sudoHexchar (hexDigit (c >>> 4)) (hexDigit (c &&& 15)) = some c := by
  exact forall_byte (by decide +kernel)

theorem flatten_plain {c : UInt8} (h : c ≠ 92) (src : Bytes) :
    flatten (c :: src) = c :: flatten src := by
  rw [flatten.eq_def]
  split
  · next heq => exact absurd heq (List.cons_ne_nil _ _)
  · next heq => exact absurd (List.cons.inj heq).1 h
  · next heq =>
    obtain ⟨rfl, rfl⟩ := List.cons.inj heq
    rfl

theorem flatten_unicode (c : UInt8) (src : Bytes) :
    flatten (92 :: 117 :: 48 :: 48 :: hexDigit (c >>> 4) :: hexDigit (c &&& 15) :: src) =
      c :: flatten src := by
  rw [flatten, sudoHexchar_hexDigit]

theorem flatten_escapeByte (c : UInt8) (src : Bytes) :
    flatten (escapeByte c ++ src) = c :: flatten src := by
  unfold escapeByte
  by_cases hquote : c = 34 ∨ c = 92
  · rw [if_pos hquote]
    cases hquote with
    | inl h => subst h; rfl
    | inr h => subst h; rfl
  · rw [if_neg hquote]
    split_ifs with h8 h12 h10 h13 h9 hcntrl
    · subst h8; rfl
    · subst h12; rfl
    · subst h10; rfl
    · subst h13; rfl
    · subst h9; rfl
    · exact flatten_unicode c src
    · exact flatten_plain (fun h => hquote (Or.inr h)) src

theorem flatten_escape (s : Bytes) : flatten (escape s) = s := by
  induction s with
  | nil => rfl
  | cons c s ih =>
    show flatten (escapeByte c ++ escape s) = c :: s
    rw [flatten_escapeByte, ih]

/-! ## The closing quote -/

def before (l : Bytes) (p : Option (Bytes × Bytes)) : Option (Bytes × Bytes) :=
  p.map (fun p => (l ++ p.1, p.2))

theorem before_before (l l' : Bytes) (p : Option (Bytes × Bytes)) :
    before l (before l' p) = before (l ++ l') p := by
  unfold before
  rw [Option.map_map]
  congr 1
  funext q
  simp only [Function.comp_apply, List.append_assoc]

theorem stringEnd_cons {c : UInt8} (hc : c ≠ 34) {cp : Bytes}
    (hnext : c = 92 → cp.head? ≠ some 34) :
    stringEnd (c :: cp) = before [c] (stringEnd cp) := by
  rw [stringEnd.eq_def]
  split
  · next heq => exact absurd heq (List.cons_ne_nil _ _)
  · next heq => exact absurd (List.cons.inj heq).1 hc
  · next heq =>
    obtain ⟨h92, hcp⟩ := List.cons.inj heq
    exact absurd (congrArg List.head? hcp) (hnext h92)
  · next heq =>
    obtain ⟨rfl, rfl⟩ := List.cons.inj heq
    rfl

theorem stringEnd_quote (cp : Bytes) : stringEnd (92 :: 34 :: cp) = before [92, 34] (stringEnd cp) :=
  rfl

theorem stringEnd_letter {c : UInt8} (hquote : c ≠ 34) (hslash : c ≠ 92) (cp : Bytes) :
    stringEnd (92 :: c :: cp) = before [92, c] (stringEnd cp) := by
  have hhead : (c :: cp).head? ≠ some 34 := fun h => hquote (Option.some.inj h)
  rw [stringEnd_cons (by decide) (fun _ => hhead), stringEnd_cons hquote (fun h => absurd h hslash), before_before]
  rfl

theorem hexDigit_plain : ∀ c : UInt8, hexDigit (c >>> 4) ≠ 34 ∧ hexDigit (c >>> 4) ≠ 92 ∧
    hexDigit (c &&& 15) ≠ 34 ∧ hexDigit (c &&& 15) ≠ 92 := by
  exact forall_byte (by decide +kernel)

theorem stringEnd_escapeByte (c : UInt8) {cp : Bytes} (hnext : c = 92 → cp.head? ≠ some 34) :
    stringEnd (escapeByte c ++ cp) = before (escapeByte c) (stringEnd cp) := by
  unfold escapeByte
  by_cases hquote : c = 34 ∨ c = 92
  · rw [if_pos hquote]
    cases hquote with
    | inl h => subst h; exact stringEnd_quote cp
    | inr h =>
      subst h
      show stringEnd (92 :: 92 :: cp) = _
      have hhead : ((92 : UInt8) :: cp).head? ≠ some 34 :=
        fun h => absurd (Option.some.inj h) (by decide)
      rw [stringEnd_cons (by decide) (fun _ => hhead), stringEnd_cons (by decide) hnext,
        before_before]
      rfl
  · rw [if_neg hquote]
    obtain ⟨h34, h92⟩ := not_or.mp hquote
    split_ifs with h8 h12 h10 h13 h9 hcntrl
    · exact stringEnd_letter (by decide) (by decide) cp
    · exact stringEnd_letter (by decide) (by decide) cp
    · exact stringEnd_letter (by decide) (by decide) cp
    · exact stringEnd_letter (by decide) (by decide) cp
    · exact stringEnd_letter (by decide) (by decide) cp
    · obtain ⟨hhi, hhi', hlo, hlo'⟩ := hexDigit_plain c
      show stringEnd (92 :: 117 :: 48 :: 48 :: hexDigit (c >>> 4) :: hexDigit (c &&& 15) :: cp) = _
      rw [stringEnd_letter (by decide) (by decide),
        stringEnd_cons (by decide) (fun h => absurd h (by decide)),
        stringEnd_cons (by decide) (fun h => absurd h (by decide)),
        stringEnd_cons hhi (fun h => absurd h hhi'), stringEnd_cons hlo (fun h => absurd h hlo')]
      simp only [before_before]
      rfl
    · exact stringEnd_cons h34 (fun h => absurd h h92)

theorem head_escapeByte (c : UInt8) (cp : Bytes) : (escapeByte c ++ cp).head? ≠ some 34 := by
  unfold escapeByte
  split_ifs with hquote <;> try exact fun h => absurd (Option.some.inj h) (by decide)
  exact fun h => hquote (Or.inl (Option.some.inj h))

def endsPlain (s : Bytes) : Bool := s.getLast? ≠ some 92

theorem endsPlain_tail {c d : UInt8} {s : Bytes} :
    endsPlain (c :: d :: s) = endsPlain (d :: s) := by
  unfold endsPlain
  rw [List.getLast?_cons_cons]

theorem stringEnd_escape {s : Bytes} (h : endsPlain s = true) (cp : Bytes) :
    stringEnd (escape s ++ 34 :: cp) = some (escape s, cp) := by
  induction s with
  | nil => rfl
  | cons c s ih =>
    show stringEnd ((escapeByte c ++ escape s) ++ 34 :: cp) = some (escapeByte c ++ escape s, cp)
    rw [List.append_assoc]
    cases s with
    | nil =>
      have hc : c ≠ 92 := fun hslash => by
        subst hslash
        exact absurd h (by decide)
      rw [stringEnd_escapeByte c (fun hslash => absurd hslash hc)]
      show some (escapeByte c ++ [], cp) = _
      rfl
    | cons d s =>
      have hnext : ((escape (d :: s)) ++ 34 :: cp).head? ≠ some 34 := by
        show ((escapeByte d ++ escape s) ++ 34 :: cp).head? ≠ some 34
        rw [List.append_assoc]
        exact head_escapeByte d _
      rw [stringEnd_escapeByte c (fun _ => hnext), ih (endsPlain_tail ▸ h)]
      rfl

theorem stringEnd_escape_backslash {s : Bytes} (h : endsPlain s = false) (cp : Bytes) :
    stringEnd (escape s ++ 34 :: cp) = before (escape s ++ [34]) (stringEnd cp) := by
  induction s with
  | nil => exact absurd h (by decide)
  | cons c s ih =>
    show stringEnd ((escapeByte c ++ escape s) ++ 34 :: cp) =
      before ((escapeByte c ++ escape s) ++ [34]) (stringEnd cp)
    rw [List.append_assoc]
    cases s with
    | nil =>
      have hc : c = 92 := by
        unfold endsPlain at h
        simpa using h
      subst hc
      show stringEnd (92 :: 92 :: 34 :: cp) = _
      have hhead : ((92 : UInt8) :: 34 :: cp).head? ≠ some 34 :=
        fun h => absurd (Option.some.inj h) (by decide)
      rw [stringEnd_cons (by decide) (fun _ => hhead), stringEnd_quote, before_before]
      rfl
    | cons d s =>
      have hnext : ((escape (d :: s)) ++ 34 :: cp).head? ≠ some 34 := by
        show ((escapeByte d ++ escape s) ++ 34 :: cp).head? ≠ some 34
        rw [List.append_assoc]
        exact head_escapeByte d _
      rw [stringEnd_escapeByte c (fun _ => hnext), ih (endsPlain_tail ▸ h), before_before,
        List.append_assoc]

theorem jsonParseString_quoted {s : Bytes} (h : endsPlain s = true) (cp : Bytes) :
    jsonParseString (quoted s ++ cp) = some (s, cp.dropWhile isspace) := by
  have hend := stringEnd_escape h cp
  unfold jsonParseString quoted
  rw [List.append_assoc]
  show (stringEnd (escape s ++ 34 :: cp)).map _ = _
  rw [hend]
  show some (flatten (escape s), _) = _
  rw [flatten_escape]

end NextBSD.Iolog

/-!
## Numbers that are written and read

`sudo_strtonum` reads what `printf` writes for a number of 64 bits.
-/

namespace NextBSD.Iolog

open Digits

def signed (negative : Bool) (n : Nat) : Int := if negative then -n else n

def digitText (digits : List Nat) : Bytes := digits.map (fun d => 48 + UInt8.ofNat d)

theorem isdigit_digit {d : Nat} (h : d < 10) :
    isdigit (48 + UInt8.ofNat d) = true ∧ ((48 + UInt8.ofNat d) - 48).toNat = d := by
  have hall : ∀ d : Fin 10, isdigit (48 + UInt8.ofNat d.val) = true ∧
      ((48 + UInt8.ofNat d.val) - 48).toNat = d.val := by decide
  exact hall ⟨d, h⟩

theorem strtonumLoop_digits (negative : Bool) {last remainder m : Nat} {digits : List Nat}
    (hdigits : ∀ d ∈ digits, d < 10) (hremainder : remainder < 10)
    (h : digits.foldl (fun n d => n * 10 + d) m ≤ last * 10 + remainder) (errval : StrtonumErr) :
    strtonumLoop negative (signed negative last) remainder (signed negative m) errval
        (digitText digits) =
      (signed negative (digits.foldl (fun n d => n * 10 + d) m),
        if digits = [] then errval else .valid, []) := by
  induction digits generalizing m errval with
  | nil => rfl
  | cons d digits ih =>
    obtain ⟨hisdigit, hvalue⟩ := isdigit_digit (hdigits d List.mem_cons_self)
    have hd : d < 10 := hdigits d List.mem_cons_self
    have hle : m * 10 + d ≤ last * 10 + remainder :=
      Nat.le_trans (le_readFrom (by decide) (m * 10 + d) digits) h
    have hover : ¬ ((if negative = true then signed negative m < signed negative last
        else signed negative last < signed negative m) ∨
        (signed negative m = signed negative last ∧ (remainder : Int) < (d : Int))) := by
      unfold signed
      cases negative <;> simp only [Bool.false_eq_true, if_false, if_true] <;> omega
    have hnext : (if negative = true then signed negative m * 10 - (d : Int)
        else signed negative m * 10 + (d : Int)) = signed negative (m * 10 + d) := by
      unfold signed
      cases negative <;> simp only [Bool.false_eq_true, if_false, if_true] <;> omega
    show strtonumLoop negative (signed negative last) remainder (signed negative m) errval
      ((48 + UInt8.ofNat d) :: digitText digits) = _
    rw [strtonumLoop, if_pos hisdigit]
    dsimp only
    rw [hvalue, if_neg hover, hnext, ih (fun d hd => hdigits d (List.mem_cons_of_mem _ hd)) h,
      if_neg (List.cons_ne_nil _ _), ite_self]
    rfl

theorem printUnsigned_digits (n : Nat) : ∃ digits, digits ≠ [] ∧ (∀ d ∈ digits, d < 10) ∧
    readDigits 10 digits = n ∧ printUnsigned n = digitText digits := by
  by_cases hzero : n = 0
  · subst hzero
    exact ⟨[0], List.cons_ne_nil _ _, by decide, rfl, rfl⟩
  · refine ⟨printDigits 10 n, fun hnil => ?_, fun d hd => printDigits_lt (by decide) hd,
      readDigits_printDigits 10 n, if_neg hzero⟩
    have hread := readDigits_printDigits 10 n
    rw [hnil] at hread
    exact hzero hread.symm

theorem digitText_head {digits : List Nat} (hne : digits ≠ []) (h : ∀ d ∈ digits, d < 10) :
    ∃ c cp, digitText digits = c :: cp ∧ isdigit c = true := by
  cases digits with
  | nil => exact absurd rfl hne
  | cons d digits => exact ⟨_, _, rfl, (isdigit_digit (h d List.mem_cons_self)).1⟩

theorem isdigit_plain : ∀ c : UInt8, isdigit c = true →
    isspace c = false ∧ c ≠ 43 ∧ c ≠ 45 ∧ endsNumber c = false := by
  exact forall_byte (by decide +kernel)

theorem sudoStrtonumx_unsigned {n : Nat} (h : (n : Int) ≤ 2 ^ 63 - 1) :
    sudoStrtonumx (printUnsigned n) (-2 ^ 63) (2 ^ 63 - 1) = ((n : Int), StrtonumErr.valid, []) := by
  obtain ⟨digits, hne, hdigits, hread, hprint⟩ := printUnsigned_digits n
  obtain ⟨c, cp, htext, hc⟩ := digitText_head hne hdigits
  obtain ⟨hspace, hplus, hminus, -⟩ := isdigit_plain c hc
  have hloop := @strtonumLoop_digits false 922337203685477580 7 0 digits hdigits (by decide)
    (by
      show readDigits 10 digits ≤ _
      omega) .initial
  rw [if_neg hne] at hloop
  have hskip : (c :: cp).dropWhile isspace = c :: cp := by
    rw [List.dropWhile_cons, if_neg (by rw [hspace]; exact Bool.false_ne_true)]
  have hrange : ¬ ((2 : Int) ^ 63 - 1 < -2 ^ 63) := by decide
  unfold sudoStrtonumx
  rw [hprint, htext, if_neg hrange]
  dsimp only
  rw [hskip]
  split
  · next heq => exact absurd (List.cons.inj heq).1 hminus
  · have hsign : (c :: cp).head? ≠ some 43 := fun heq => hplus (Option.some.inj heq)
    rw [if_neg hsign, ← htext]
    have hmax : (2 ^ 63 - 1 : Int).tdiv 10 = signed false 922337203685477580 := by decide
    have hrem : (2 ^ 63 - 1 : Int).tmod 10 = (7 : Nat) := by decide
    have hvalue : signed false (digits.foldl (fun n d => n * 10 + d) 0) = n :=
      congrArg (signed false) hread
    rw [hmax, hrem, show (0 : Int) = signed false 0 from rfl, hloop, hvalue]
    dsimp only
    rw [if_neg (show ¬ ((n : Int) < -2 ^ 63) by omega)]

theorem sudoStrtonumx_negative {n : Nat} (h : (n : Int) ≤ 2 ^ 63) :
    sudoStrtonumx (45 :: printUnsigned n) (-2 ^ 63) (2 ^ 63 - 1) =
      (-(n : Int), StrtonumErr.valid, []) := by
  obtain ⟨digits, hne, hdigits, hread, hprint⟩ := printUnsigned_digits n
  have hloop := @strtonumLoop_digits true 922337203685477580 8 0 digits hdigits (by decide)
    (by
      show readDigits 10 digits ≤ _
      omega) .initial
  rw [if_neg hne] at hloop
  have hrange : ¬ ((2 : Int) ^ 63 - 1 < -2 ^ 63) := by decide
  have hskip : (45 :: printUnsigned n).dropWhile isspace = 45 :: printUnsigned n := rfl
  unfold sudoStrtonumx
  rw [if_neg hrange, hskip]
  dsimp only
  split
  · next cp heq =>
    obtain rfl : printUnsigned n = cp := (List.cons.inj heq).2
    have hmin : (-2 ^ 63 : Int).tdiv 10 = signed true 922337203685477580 := by decide
    have hrem : -(-2 ^ 63 : Int).tmod 10 = (8 : Nat) := by decide
    have hpos : ¬ (-(-2 ^ 63 : Int).tmod 10 < 0) := by decide
    have hvalue : signed true (digits.foldl (fun n d => n * 10 + d) 0) = -(n : Int) :=
      congrArg (signed true) hread
    rw [if_neg hpos, hmin, hrem, hprint, show (0 : Int) = signed true 0 from rfl, hloop, hvalue]
    dsimp only
    rw [if_neg (show ¬ ((2 : Int) ^ 63 - 1 < -(n : Int)) by omega)]
  · next hno => exact absurd rfl (hno (printUnsigned n))

def isLongLong (n : Int) : Bool := -2 ^ 63 ≤ n && n < 2 ^ 63

theorem sudoStrtonum_printSigned {n : Int} (h : isLongLong n = true) :
    sudoStrtonum (printSigned n) (-2 ^ 63) (2 ^ 63 - 1) = some n := by
  unfold isLongLong at h
  rw [Bool.and_eq_true, decide_eq_true_eq, decide_eq_true_eq] at h
  unfold sudoStrtonum printSigned
  by_cases hneg : n < 0
  · rw [if_pos hneg, sudoStrtonumx_negative (by omega)]
    exact congrArg some (by omega)
  · rw [if_neg hneg, sudoStrtonumx_unsigned (by omega)]
    exact congrArg some (by omega)

theorem printSigned_text (n : Int) : (∃ c cp, printSigned n = c :: cp ∧
    (c = 45 ∨ isdigit c = true)) ∧ ∀ c ∈ printSigned n, endsNumber c = false := by
  obtain ⟨digits, hne, hdigits, -, hprint⟩ := printUnsigned_digits n.natAbs
  obtain ⟨c, cp, htext, hc⟩ := digitText_head hne hdigits
  have hall : ∀ c ∈ printUnsigned n.natAbs, endsNumber c = false := by
    intro c hmem
    rw [hprint] at hmem
    obtain ⟨d, hd, rfl⟩ := List.mem_map.mp hmem
    exact (isdigit_plain _ (isdigit_digit (hdigits d hd)).1).2.2.2
  unfold printSigned
  split_ifs with hneg
  · refine ⟨⟨45, _, rfl, Or.inl rfl⟩, fun c hmem => ?_⟩
    cases List.mem_cons.mp hmem with
    | inl h => subst h; rfl
    | inr h => exact hall c h
  · exact ⟨⟨c, cp, hprint.trans htext, Or.inr hc⟩, hall⟩

end NextBSD.Iolog
