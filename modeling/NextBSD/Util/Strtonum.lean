import Mathlib.Tactic.SplitIfs
import NextBSD.Iolog.JsonScalars

/-!
# lib/util/strtonum.c: numbers in a range

The scan is that of `Iolog.strtonumLoop`, here with the check that the products and sums are of
type `long long`, and with what the caller is told.
-/

namespace NextBSD.Util

open Digits
open Iolog (Bytes StrtonumErr isspace isdigit signed digitText strtonumLoop isLongLong)

inductive Errno where
  | einval | erange
  deriving DecidableEq, Repr

/-- The value of an expression of type `long long`: `none` is an overflow. -/
def longLong (n : Int) : Option Int := if isLongLong n then some n else none

theorem longLong_eq {n : Int} (h : isLongLong n = true) : longLong n = some n := if_pos h

def digitLoop (negative : Bool) (lastval remainder : Int) :
    Int → StrtonumErr → Bytes → Option (Int × StrtonumErr × Bytes)
  | result, errval, [] => some (result, errval, [])
  | result, errval, ch :: cp =>
    if isdigit ch then
      let digit : Int := (ch - 48).toNat
      if (if negative then result < lastval else lastval < result) ∨
          (result = lastval ∧ remainder < digit) then
        -- skip the remaining digits
        some (result, if negative then .tooSmall else .tooBig, cp.dropWhile isdigit)
      else do
        let product ← longLong (result * 10)
        let sum ← longLong (if negative then product - digit else product + digit)
        digitLoop negative lastval remainder sum .valid cp
    else some (result, errval, ch :: cp)

/-- `sudo_strtonumx` up to the label `done`. -/
def scan (str : Bytes) (minval maxval : Int) : Option (Int × StrtonumErr × Bytes) :=
  if maxval < minval then some (0, .invalid, str)
  else
    let cp := str.dropWhile isspace
    if cp.head? = some 45 then do
      let lastval := minval.tdiv 10
      let remainder := -(minval.tmod 10)
      let (lastval, remainder) :=
        if remainder < 0 then (lastval + 1, remainder + 10) else (lastval, remainder)
      let (result, errval, cp) ← digitLoop true lastval remainder 0 .initial cp.tail
      pure (result, if maxval < result then .tooBig else errval, cp)
    else do
      let cp := if cp.head? = some 43 then cp.tail else cp
      let (result, errval, cp) ← digitLoop false (maxval.tdiv 10) (maxval.tmod 10) 0 .initial cp
      pure (result, if result < minval then .tooSmall else errval, cp)

/-- What the caller gets; `errno` is `none` where it is left alone. -/
structure Answer where
  value : Int
  errstr : Option String
  errno : Option Errno
  endp : Bytes
  deriving DecidableEq, Repr

def report (str : Bytes) : Int × StrtonumErr × Bytes → Answer
  | (result, .initial, _) => { value := result, errstr := none, errno := none, endp := str }
  | (result, .valid, cp) => { value := result, errstr := none, errno := none, endp := cp }
  | (_, .invalid, _) =>
    { value := 0, errstr := some "invalid value", errno := some .einval, endp := str }
  | (_, .tooSmall, cp) =>
    { value := 0, errstr := some "value too small", errno := some .erange, endp := cp }
  | (_, .tooBig, cp) =>
    { value := 0, errstr := some "value too large", errno := some .erange, endp := cp }

def sudoStrtonumx (str : Bytes) (minval maxval : Int) : Option Answer :=
  (scan str minval maxval).map (report str)

def sudoStrtonum (str : Bytes) (minval maxval : Int) : Option Answer :=
  (sudoStrtonumx str minval maxval).map (fun answer =>
    if str = answer.endp ∨ answer.endp ≠ [] then
      { answer with value := 0, errstr := some "invalid value", errno := some .einval }
    else answer)

/-! Where nothing overflows this is the scan that the reader of the log file uses. -/

/-! ## Numerals -/

def SignText (negative : Bool) (sign : Bytes) : Prop :=
  (negative = true ∧ sign = [45]) ∨ (negative = false ∧ (sign = [] ∨ sign = [43]))

/-- The string is white space, a sign, the digits behind it and a rest.  Without a sign and without
digits, the rest is where white space ends. -/
def Parts (str : Bytes) (negative : Bool) (digits : List Nat) (rest : Bytes) : Prop :=
  ∃ blanks sign, str = blanks ++ (sign ++ (digitText digits ++ rest)) ∧
    (∀ c ∈ blanks, isspace c = true) ∧ SignText negative sign ∧ (∀ d ∈ digits, d < 10) ∧
    (∀ c cp, rest = c :: cp → isdigit c = false) ∧
    (digits = [] → sign = [] → ∀ c cp, rest = c :: cp → isspace c = false ∧ c ≠ 43 ∧ c ≠ 45)

def denoted (negative : Bool) (digits : List Nat) : Int := signed negative (readDigits 10 digits)

/-- The string up to `rest` is a numeral and denotes the integer. -/
def Denotes (str : Bytes) (v : Int) (rest : Bytes) : Prop :=
  ∃ negative digits, Parts str negative digits rest ∧ digits ≠ [] ∧ denoted negative digits = v

/-! ## The scan

It takes the string apart in the same way. -/

def skipSign : Bytes → Bool × Bytes
  | 45 :: cp => (true, cp)
  | 43 :: cp => (false, cp)
  | cp => (false, cp)

def parts (str : Bytes) : Bool × List Nat × Bytes :=
  let cp := skipSign (str.dropWhile isspace)
  (cp.1, (cp.2.takeWhile isdigit).map (fun c => (c - 48).toNat), cp.2.dropWhile isdigit)

theorem digitText_map (cp : Bytes) : digitText (cp.map (fun c => (c - 48).toNat)) = cp := by
  unfold digitText
  rw [List.map_map]
  refine (List.map_congr_left fun c _ => ?_).trans (List.map_id cp)
  show 48 + UInt8.ofNat (c - 48).toNat = c
  rw [UInt8.ofNat_toNat, UInt8.add_comm]
  exact UInt8.sub_add_cancel c 48

theorem map_digitText {digits : List Nat} (h : ∀ d ∈ digits, d < 10) :
    (digitText digits).map (fun c => (c - 48).toNat) = digits := by
  unfold digitText
  rw [List.map_map]
  exact (List.map_congr_left fun d hd => (Iolog.isdigit_digit (h d hd)).2).trans (List.map_id digits)

theorem isdigit_of_mem_digitText {digits : List Nat} (h : ∀ d ∈ digits, d < 10) {c : UInt8}
    (hc : c ∈ digitText digits) : isdigit c = true := by
  obtain ⟨d, hd, rfl⟩ := List.mem_map.mp hc
  exact (Iolog.isdigit_digit (h d hd)).1

theorem digit_lt : ∀ c : UInt8, isdigit c = true → (c - 48).toNat < 10 :=
  Iolog.forall_byte (by decide +kernel)

theorem skipSign_append {negative : Bool} {sign cp : Bytes} (h : SignText negative sign)
    (hhead : sign = [] → ∀ c rest, cp = c :: rest → c ≠ 43 ∧ c ≠ 45) :
    skipSign (sign ++ cp) = (negative, cp) := by
  rcases h with ⟨rfl, rfl⟩ | ⟨rfl, rfl | rfl⟩
  · rfl
  · show skipSign cp = (false, cp)
    unfold skipSign
    split
    · next rest => exact absurd rfl (hhead rfl 45 rest rfl).2
    · next rest => exact absurd rfl (hhead rfl 43 rest rfl).1
    · rfl
  · rfl

theorem parts_eq_iff {str : Bytes} {negative : Bool} {digits : List Nat} {rest : Bytes} :
    parts str = (negative, digits, rest) ↔ Parts str negative digits rest := by
  constructor
  · intro h
    obtain ⟨rfl, rfl, rfl⟩ : (skipSign (str.dropWhile isspace)).1 = negative ∧
        ((skipSign (str.dropWhile isspace)).2.takeWhile isdigit).map (fun c => (c - 48).toNat) =
          digits ∧ (skipSign (str.dropWhile isspace)).2.dropWhile isdigit = rest := by
      unfold parts at h
      exact ⟨congrArg (·.1) h, congrArg (·.2.1) h, congrArg (·.2.2) h⟩
    obtain ⟨sign, hsign, hcp, hhead⟩ : ∃ sign, SignText (skipSign (str.dropWhile isspace)).1 sign ∧
        str.dropWhile isspace = sign ++ (skipSign (str.dropWhile isspace)).2 ∧
        (sign = [] → ∀ c cp, (skipSign (str.dropWhile isspace)).2 = c :: cp →
          isspace c = false ∧ c ≠ 43 ∧ c ≠ 45) := by
      have hspace : ∀ c cp, str.dropWhile isspace = c :: cp → isspace c = false := by
        intro c cp hcp
        have hnot := List.head?_dropWhile_not isspace str
        rw [hcp] at hnot
        exact hnot
      generalize str.dropWhile isspace = cp at hspace ⊢
      unfold skipSign
      split
      · exact ⟨[45], Or.inl ⟨rfl, rfl⟩, rfl, fun h => absurd h (List.cons_ne_nil _ _)⟩
      · exact ⟨[43], Or.inr ⟨rfl, Or.inr rfl⟩, rfl, fun h => absurd h (List.cons_ne_nil _ _)⟩
      · next h45 h43 =>
        refine ⟨[], Or.inr ⟨rfl, Or.inl rfl⟩, rfl, fun _ c rest hcp => ⟨hspace c rest hcp, ?_, ?_⟩⟩
        · rintro rfl
          exact h43 rest hcp
        · rintro rfl
          exact h45 rest hcp
    have hdigits : ∀ c ∈ (skipSign (str.dropWhile isspace)).2.takeWhile isdigit,
        isdigit c = true := fun c hc => List.mem_takeWhile_imp hc
    refine ⟨str.takeWhile isspace, sign, ?_, fun c hc => List.mem_takeWhile_imp hc, hsign, ?_, ?_,
      ?_⟩
    · rw [digitText_map, List.takeWhile_append_dropWhile, ← hcp,
        List.takeWhile_append_dropWhile]
    · intro d hd
      obtain ⟨c, hc, rfl⟩ := List.mem_map.mp hd
      exact digit_lt c (hdigits c hc)
    · intro c cp hrest
      have hnot := List.head?_dropWhile_not isdigit (skipSign (str.dropWhile isspace)).2
      rw [hrest] at hnot
      exact hnot
    · intro hnil hnosign c cp hrest
      refine hhead hnosign c cp ?_
      rw [← List.takeWhile_append_dropWhile (p := isdigit)
        (l := (skipSign (str.dropWhile isspace)).2), List.map_eq_nil_iff.mp hnil, hrest,
        List.nil_append]
  · rintro ⟨blanks, sign, rfl, hblanks, hsign, hdigits, hrest, hhead⟩
    have htext : ∀ c ∈ digitText digits, isdigit c = true :=
      fun c hc => isdigit_of_mem_digitText hdigits hc
    -- without a sign the string goes on with a digit or with what stops the scan
    have hplain : sign = [] → ∀ c cp, digitText digits ++ rest = c :: cp →
        isspace c = false ∧ c ≠ 43 ∧ c ≠ 45 := by
      intro hnosign c cp hcp
      cases digits with
      | nil => exact hhead rfl hnosign c cp hcp
      | cons d digits =>
        obtain rfl : 48 + UInt8.ofNat d = c := (List.cons.inj hcp).1
        obtain ⟨hspace, hplus, hminus, -⟩ := Iolog.isdigit_plain _
          (htext (48 + UInt8.ofNat d) List.mem_cons_self)
        exact ⟨hspace, hplus, hminus⟩
    have hdrop : (blanks ++ (sign ++ (digitText digits ++ rest))).dropWhile isspace =
        sign ++ (digitText digits ++ rest) := by
      rw [List.dropWhile_append_of_pos hblanks]
      refine List.dropWhile_eq_self_iff.mpr fun hlength => ?_
      rcases hsign with ⟨-, rfl⟩ | ⟨-, rfl | rfl⟩
      · show ¬ isspace 45 = true
        decide
      · obtain ⟨c, cp, hcp⟩ := List.exists_cons_of_length_pos hlength
        have hspace := (hplain rfl c cp hcp).1
        simp only [hcp, List.getElem_cons_zero, hspace, Bool.false_eq_true, not_false_iff]
      · show ¬ isspace 43 = true
        decide
    have hstop : rest.takeWhile isdigit = [] ∧ rest.dropWhile isdigit = rest := by
      cases rest with
      | nil => exact ⟨rfl, rfl⟩
      | cons c cp =>
        have hc := hrest c cp rfl
        rw [List.takeWhile_cons, List.dropWhile_cons, hc]
        exact ⟨rfl, rfl⟩
    unfold parts
    rw [hdrop, skipSign_append hsign fun hnosign c cp hcp => (hplain hnosign c cp hcp).2]
    dsimp only
    rw [List.takeWhile_append_of_pos htext, List.dropWhile_append_of_pos htext, hstop.1, hstop.2,
      List.append_nil, map_digitText hdigits]

theorem Parts.unique {str rest rest' : Bytes} {negative negative' : Bool}
    {digits digits' : List Nat} (h : Parts str negative digits rest)
    (h' : Parts str negative' digits' rest') :
    negative' = negative ∧ digits' = digits ∧ rest' = rest := by
  have heq := (parts_eq_iff.mpr h').symm.trans (parts_eq_iff.mpr h)
  exact ⟨congrArg (·.1) heq, congrArg (·.2.1) heq, congrArg (·.2.2) heq⟩

theorem Parts.exists (str : Bytes) : ∃ negative digits rest, Parts str negative digits rest :=
  ⟨_, _, _, parts_eq_iff.mp rfl⟩

def Limits (negative : Bool) (bound lastval remainder : Int) : Prop :=
  ∀ n d : Nat, d < 10 →
    (((if negative then signed negative n < lastval else lastval < signed negative n) ∨
      (signed negative n = lastval ∧ remainder < d)) ↔ bound < (n * 10 + d : Nat))

theorem tdiv_ten (n : Int) : 10 * n.tdiv 10 + n.tmod 10 = n ∧
    (0 ≤ n → 0 ≤ n.tmod 10 ∧ n.tmod 10 < 10) ∧ (n < 0 → -10 < n.tmod 10 ∧ n.tmod 10 ≤ 0) := by
  refine ⟨Int.mul_tdiv_add_tmod n 10, fun h => ⟨Int.tmod_nonneg 10 h, Int.tmod_lt_of_pos n (by decide)⟩,
    fun h => ?_⟩
  have hneg : (-n).tmod 10 = -(n.tmod 10) := Int.neg_tmod n 10
  have hnonneg := Int.tmod_nonneg (a := -n) 10 (by omega)
  have hlt := Int.tmod_lt_of_pos (-n) (b := 10) (by decide)
  omega

theorem limits_positive (maxval : Int) : Limits false maxval (maxval.tdiv 10) (maxval.tmod 10) := by
  intro n d hd
  obtain ⟨hdiv, hnonneg, hneg⟩ := tdiv_ten maxval
  simp only [signed, Bool.false_eq_true, if_false]
  by_cases h : 0 ≤ maxval
  · have hrem := hnonneg h
    omega
  · have hrem := hneg (by omega)
    omega

theorem limits_negative (minval : Int) :
    let adjusted := if -(minval.tmod 10) < 0 then (minval.tdiv 10 + 1, -(minval.tmod 10) + 10)
      else (minval.tdiv 10, -(minval.tmod 10))
    Limits true (-minval) adjusted.1 adjusted.2 := by
  intro adjusted n d hd
  obtain ⟨hdiv, hnonneg, hneg⟩ := tdiv_ten minval
  simp only [signed, if_true, adjusted]
  by_cases h : 0 ≤ minval
  · have hrem := hnonneg h
    split_ifs <;> dsimp only <;> omega
  · have hrem := hneg (by omega)
    split_ifs <;> dsimp only <;> omega

def loopError (negative : Bool) (digits : List Nat) (all : Bool) (errval : StrtonumErr) :
    StrtonumErr :=
  if all then (if digits = [] then errval else .valid)
  else if negative then .tooSmall else .tooBig

theorem digitLoop_eq {negative : Bool} {bound lastval remainder : Int}
    (hlimits : Limits negative bound lastval remainder)
    (hlong : ∀ n : Nat, (n : Int) ≤ bound → isLongLong (signed negative n) = true)
    {digits : List Nat} (hdigits : ∀ d ∈ digits, d < 10) {rest : Bytes}
    (hrest : ∀ c cp, rest = c :: cp → isdigit c = false) (n : Nat) (errval : StrtonumErr) :
    digitLoop negative lastval remainder (signed negative n) errval (digitText digits ++ rest) =
      some (signed negative (readWithin 10 bound n digits).1,
        loopError negative digits (readWithin 10 bound n digits).2 errval, rest) := by
  induction digits generalizing n errval with
  | nil =>
    show digitLoop negative lastval remainder (signed negative n) errval rest = _
    cases rest with
    | nil => rfl
    | cons c cp =>
      have hc := hrest c cp rfl
      unfold digitLoop
      rw [if_neg (by rw [hc]; exact Bool.false_ne_true)]
      rfl
  | cons d digits ih =>
    have hd : d < 10 := hdigits d List.mem_cons_self
    have htail : ∀ d ∈ digits, d < 10 := fun d hd => hdigits d (List.mem_cons_of_mem _ hd)
    obtain ⟨hisdigit, hvalue⟩ := Iolog.isdigit_digit hd
    show digitLoop negative lastval remainder (signed negative n) errval
      ((48 + UInt8.ofNat d) :: (digitText digits ++ rest)) = _
    unfold digitLoop readWithin
    rw [if_pos hisdigit]
    dsimp only
    rw [hvalue]
    by_cases hover : bound < (n * 10 + d : Nat)
    · have hskip : (digitText digits ++ rest).dropWhile isdigit = rest := by
        rw [List.dropWhile_append_of_pos fun c hc => isdigit_of_mem_digitText htail hc]
        cases rest with
        | nil => rfl
        | cons c cp => rw [List.dropWhile_cons, hrest c cp rfl, if_neg Bool.false_ne_true]
      rw [if_pos ((hlimits n d hd).mpr hover), if_neg (Int.not_le.mpr hover), hskip]
      rfl
    · have hle : ((n * 10 + d : Nat) : Int) ≤ bound := Int.not_lt.mp hover
      have hproduct : isLongLong (signed negative n * 10) = true := by
        have hlong' := hlong (n * 10) (by omega)
        have hmul : signed negative n * 10 = signed negative (n * 10) := by
          unfold signed
          cases negative <;> simp only [Bool.false_eq_true, if_false, if_true] <;> omega
        rw [hmul]
        exact hlong'
      have hsum : (if negative = true then signed negative n * 10 - (d : Int)
          else signed negative n * 10 + (d : Int)) = signed negative (n * 10 + d) := by
        unfold signed
        cases negative <;> simp only [Bool.false_eq_true, if_false, if_true] <;> omega
      rw [if_neg fun h => hover ((hlimits n d hd).mp h), if_pos hle]
      rw [longLong_eq hproduct, Option.bind_eq_bind, Option.bind_some, hsum,
        longLong_eq (hlong _ hle), Option.bind_some]
      rw [ih htail (n * 10 + d) .valid]
      unfold loopError
      rw [if_neg (List.cons_ne_nil d digits), ite_self]

def lowest (negative : Bool) (minval maxval : Int) : Int := if negative then -maxval else minval

def highest (negative : Bool) (minval maxval : Int) : Int := if negative then -minval else maxval

def nearError (negative : Bool) : StrtonumErr := if negative then .tooBig else .tooSmall

theorem scan_eq {str rest : Bytes} {negative : Bool} {digits : List Nat} {minval maxval : Int}
    (hmin : -2 ^ 63 ≤ minval) (hmax : maxval < 2 ^ 63) (hrange : minval ≤ maxval)
    (h : Parts str negative digits rest) :
    scan str minval maxval =
      some (signed negative (readWithin 10 (highest negative minval maxval) 0 digits).1,
        if ((readWithin 10 (highest negative minval maxval) 0 digits).1 : Int) <
          lowest negative minval maxval then nearError negative
        else loopError negative digits
          (readWithin 10 (highest negative minval maxval) 0 digits).2 .initial, rest) := by
  have hparts := parts_eq_iff.mpr h
  obtain ⟨-, -, -, -, -, hdigits, hrest, -⟩ := h
  have hskip : skipSign (str.dropWhile isspace) = (negative, digitText digits ++ rest) := by
    unfold parts at hparts
    have hsign := congrArg (·.1) hparts
    have htext := congrArg (·.2.1) hparts
    have hleft := congrArg (·.2.2) hparts
    dsimp only at hsign htext hleft
    rw [← hsign, ← htext, ← hleft, digitText_map, List.takeWhile_append_dropWhile]
  have hpositive : ∀ n : Nat, (n : Int) ≤ maxval → isLongLong (signed false n) = true := by
    intro n hn
    have hlong : -2 ^ 63 ≤ (n : Int) ∧ (n : Int) < 2 ^ 63 := by omega
    simpa [isLongLong, signed] using hlong
  have hnegative : ∀ n : Nat, (n : Int) ≤ -minval → isLongLong (signed true n) = true := by
    intro n hn
    have hlong : -2 ^ 63 ≤ -(n : Int) ∧ -(n : Int) < 2 ^ 63 := by omega
    simpa [isLongLong, signed] using hlong
  unfold scan
  rw [if_neg (Int.not_lt.mpr hrange)]
  dsimp only
  generalize str.dropWhile isspace = cp at hskip ⊢
  unfold skipSign at hskip
  split at hskip
  · next cp =>
    obtain ⟨rfl, rfl⟩ : true = negative ∧ cp = digitText digits ++ rest :=
      ⟨congrArg (·.1) hskip, congrArg (·.2) hskip⟩
    have hloop := digitLoop_eq (limits_negative minval) hnegative hdigits hrest 0 .initial
    have hzero : signed true (0 : Nat) = 0 := rfl
    rw [hzero] at hloop
    rw [List.head?_cons, if_pos rfl, List.tail_cons, hloop, Option.bind_eq_bind, Option.bind_some]
    have hnear : ∀ n : Nat, maxval < signed true n ↔ (n : Int) < -maxval := by
      intro n
      show maxval < -(n : Int) ↔ _
      omega
    simp only [hnear]
    rfl
  · next cp =>
    obtain ⟨rfl, rfl⟩ : false = negative ∧ cp = digitText digits ++ rest :=
      ⟨congrArg (·.1) hskip, congrArg (·.2) hskip⟩
    have hloop := digitLoop_eq (limits_positive maxval) hpositive hdigits hrest 0 .initial
    have hzero : signed false (0 : Nat) = 0 := rfl
    rw [hzero] at hloop
    have hplus : ¬ (some (43 : UInt8) = some 45) := by decide
    rw [List.head?_cons, if_neg hplus, if_pos rfl, List.tail_cons, hloop, Option.bind_eq_bind, Option.bind_some]
    rfl
  · next h45 h43 =>
    obtain ⟨rfl, rfl⟩ : false = negative ∧ cp = digitText digits ++ rest :=
      ⟨congrArg (·.1) hskip, congrArg (·.2) hskip⟩
    have hloop := digitLoop_eq (limits_positive maxval) hpositive hdigits hrest 0 .initial
    have hzero : signed false (0 : Nat) = 0 := rfl
    rw [hzero] at hloop
    have hplus : (digitText digits ++ rest).head? ≠ some 43 := by
      intro hhead
      obtain ⟨cp, hcp⟩ := List.head?_eq_some_iff.mp hhead
      exact h43 cp hcp
    have hminus : (digitText digits ++ rest).head? ≠ some 45 := by
      intro hhead
      obtain ⟨cp, hcp⟩ := List.head?_eq_some_iff.mp hhead
      exact h45 cp hcp
    rw [if_neg hminus, if_neg hplus, hloop, Option.bind_eq_bind, Option.bind_some]
    rfl

end NextBSD.Util
