import NextBSD.Zsh.Braces
import NextBSD.Zsh.Pattern.NumericGlob

/-!
# Ranges of numbers in braces

Two or three numbers are given in decimal.  They are read, and the members of the progression are
counted, unless something overflows.
-/

namespace NextBSD.Zsh.Braces

open Padding (int)
open Progression
open Digits (readDigits_zeros readDigits_printDigits length_printDigits_le readFrom_lt
  printDigits_lt)
open Pattern.Numeric (value digit zdigit_ten zdigit_ten_none digit_plain digitsOf_ten digit_le)

structure Numeral where
  sign : Bytes
  digits : Bytes
  sign_dash : sign = [] ∨ ∃ c, isDash c = true ∧ sign = [c]
  digits_ne : digits ≠ []
  idigits : ∀ c ∈ digits, idigit c = true
  fits : Fits (decide (sign ≠ [])) (value digits)

def Numeral.bytes (n : Numeral) : Bytes := n.sign ++ n.digits

def Numeral.value (n : Numeral) : Int :=
  denoted (decide (n.sign ≠ [])) (Pattern.Numeric.value n.digits)

def Numeral.padded (n : Numeral) : Bool := n.digits.head? = some 48

theorem zstrtol_numeral (n : Numeral) {rest : Bytes}
    (hrest : ∀ c, rest.head? = some c → idigit c = false) :
    zstrtol (n.bytes ++ rest) = (n.value, rest) := by
  have hparts : Parts (n.bytes ++ rest) 10 false (decide (n.sign ≠ [])) 10 n.digits rest := by
    refine ⟨[], n.sign, [], ?_, fun _ h => absurd h List.not_mem_nil, ?_, ?_,
      .inr ⟨by decide, rfl, rfl⟩,
      fun c hc => .inl (by rw [zdigit_ten (n.idigits c hc)]; rfl), ?_⟩
    · exact List.append_assoc n.sign n.digits rest
    · rcases n.sign_dash with hnil | ⟨c, hc, hsign⟩
      · rw [hnil]
        exact .inr ⟨rfl, .inl rfl⟩
      · rw [hsign]
        refine .inl ⟨rfl, ?_⟩
        unfold isDash at hc
        rw [Bool.or_eq_true, decide_eq_true_iff, decide_eq_true_iff] at hc
        exact hc.imp (congrArg ([·])) (congrArg ([·]))
    · intro _ c hc
      rw [List.nil_append, List.head?_append_of_ne_nil _ n.digits_ne] at hc
      exact digit_plain (n.idigits c (List.mem_of_head? hc))
    · rintro c hc (hdigit | ⟨hunderscore, -⟩)
      · rw [zdigit_ten_none (hrest c hc)] at hdigit
        cases hdigit
      · cases hunderscore
  have hdigits : Digits.readDigits 10 (digitsOf 10 n.digits) = Pattern.Numeric.value n.digits := by
    rw [digitsOf_ten n.idigits]
    rfl
  obtain ⟨neg, base, run, rest', hparts', hend, hexact, -⟩ :=
    (readsExactly_iff (.inr (by decide)) hparts).mpr (.inl (by rw [hdigits]; exact n.fits))
  obtain ⟨rfl, rfl, rfl, rfl⟩ := hparts'.unique (by decide) hparts
  rw [hdigits] at hexact
  unfold zstrtol
  dsimp only
  rw [(hexact n.fits).1, hend]
  rfl

theorem Numeral.value_range (n : Numeral) : -2 ^ 63 ≤ n.value ∧ n.value < 2 ^ 63 := n.fits

theorem Numeral.bytes_ne (n : Numeral) : n.bytes ≠ [] := fun h =>
  n.digits_ne (List.append_eq_nil_iff.mp h).2

/-! ## The group -/

def Plain (c : UInt8) : Prop := idigit c = true ∨ isDash c = true

theorem Plain.ne {c : UInt8} (h : Plain c) : c ≠ Inbrace ∧ c ≠ Outbrace ∧ c ≠ Comma ∧ c ≠ 46 := by
  have hne (d : UInt8) (hdigit : idigit d = false) (hdash : isDash d = false) : c ≠ d := by
    rintro rfl
    rcases h with h | h
    · rw [hdigit] at h
      cases h
    · rw [hdash] at h
      cases h
  exact ⟨hne _ rfl rfl, hne _ rfl rfl, hne _ rfl rfl, hne _ rfl rfl⟩

theorem Numeral.plain (n : Numeral) {c : UInt8} (h : c ∈ n.bytes) : Plain c := by
  rcases List.mem_append.mp h with h | h
  · rcases n.sign_dash with hnil | ⟨d, hd, hsign⟩
    · rw [hnil] at h
      exact absurd h List.not_mem_nil
    · rw [hsign, List.mem_singleton] at h
      exact .inr (h ▸ hd)
  · exact .inl (n.idigits c h)

theorem matchBraces_plain {t : Bytes} (h : ∀ c ∈ t, Plain c) (g : Group) (rest : Bytes) :
    matchBraces false 1 g (t ++ rest) =
      matchBraces false 1 { g with offset := g.offset + t.length } rest := by
  induction t generalizing g with
  | nil => rfl
  | cons c t ih =>
    obtain ⟨hin, hout, hcomma, hdot⟩ := (h c List.mem_cons_self).ne
    rw [List.cons_append, matchBraces]
    dsimp only
    rw [if_neg Bool.false_ne_true, if_neg hin, if_neg hout, if_neg fun h => hcomma h.2,
      if_neg fun h => hdot h.2.1, ih fun d hd => h d (List.mem_cons_of_mem c hd)]
    show matchBraces false 1 { g with offset := g.offset + 1 + t.length } rest = _
    rw [show g.offset + 1 + t.length = g.offset + (c :: t).length by
      rw [List.length_cons]; omega]

theorem matchBraces_dots (g : Group) (rest : Bytes) :
    matchBraces false 1 g (46 :: 46 :: rest) = matchBraces false 1
      { g with offset := g.offset + 2, dotdot := g.dotdot + 1 } rest := rfl

theorem matchBraces_close (g : Group) (rest : Bytes) :
    matchBraces false 1 g (Outbrace :: rest) = some g := rfl

def incrText : Option Numeral → Bytes
  | none => []
  | some c => 46 :: 46 :: c.bytes

def groupText (a b : Numeral) (c : Option Numeral) (back : Bytes) : Bytes :=
  a.bytes ++ 46 :: 46 :: (b.bytes ++ (incrText c ++ Outbrace :: back))

section

variable {a b : Numeral} {c : Option Numeral} {back : Bytes}

theorem matchBraces_group (a b : Numeral) (c : Option Numeral) (back : Bytes) :
    matchBraces false 1 { offset := 0, comma := 0, dotdot := 0 } (groupText a b c back) =
      some { offset := (a.bytes ++ 46 :: 46 :: (b.bytes ++ incrText c)).length, comma := 0
             dotdot := if c = none then 1 else 2 } := by
  unfold groupText
  rw [matchBraces_plain fun _ => a.plain, matchBraces_dots, matchBraces_plain fun _ => b.plain]
  cases c with
  | none =>
    show matchBraces false 1 _ (Outbrace :: back) = _
    rw [matchBraces_close]
    dsimp only
    simp only [incrText, List.length_append, List.length_cons, List.append_nil]
    rw [show 0 + a.bytes.length + 2 + b.bytes.length =
      a.bytes.length + (b.bytes.length + 1 + 1) by omega]
    rfl
  | some c =>
    show matchBraces false 1 _ (46 :: 46 :: (c.bytes ++ Outbrace :: back)) = _
    rw [matchBraces_dots, matchBraces_plain fun _ => c.plain, matchBraces_close]
    dsimp only
    simp only [incrText, List.length_append, List.length_cons]
    rw [show 0 + a.bytes.length + 2 + b.bytes.length + 2 + c.bytes.length =
      a.bytes.length + (b.bytes.length + (c.bytes.length + 1 + 1) + 1 + 1) by omega]
    rfl

theorem drop_group (a b : Numeral) (c : Option Numeral) (back : Bytes) :
    (groupText a b c back).drop (a.bytes ++ 46 :: 46 :: (b.bytes ++ incrText c)).length =
      Outbrace :: back := by
  have hgroup : groupText a b c back =
      (a.bytes ++ 46 :: 46 :: (b.bytes ++ incrText c)) ++ Outbrace :: back := by
    unfold groupText
    rw [List.append_assoc, List.cons_append, List.cons_append, List.append_assoc]
  rw [hgroup, List.drop_left]

/-- The width to which the numbers are padded: that of the first one that is padded itself. -/
def minWidth (a b : Numeral) (c : Option Numeral) : Nat :=
  if a.padded then a.bytes.length
  else if b.padded then b.bytes.length
  else
    match c with
    | some c => if c.padded then c.bytes.length else 0
    | none => 0

theorem startsZero_numeral (n : Numeral) (rest : Bytes) :
    startsZero (n.bytes ++ rest) = n.padded := by
  obtain ⟨d, ds, hds⟩ := List.exists_cons_of_ne_nil n.digits_ne
  unfold startsZero Numeral.padded Numeral.bytes
  rcases n.sign_dash with hnil | ⟨c, hc, hsign⟩
  · have hdash := (digit_plain (n.idigits d (hds ▸ List.mem_cons_self))).2.1
    rw [hnil, hds]
    simp [hdash]
  · rw [hsign, hds]
    have hc48 : c ≠ 48 := by
      rintro rfl
      exact absurd hc (by decide)
    simp [hc, hc48]

theorem twoDots_dots (rest : Bytes) : twoDots (46 :: 46 :: rest) = true := rfl

theorem int_zero : int 0 = 0 := by decide

def incr (c : Option Numeral) : Int := (c.map fun c => int c.value).getD 1

theorem head_incrText (c : Option Numeral) (back : Bytes) :
    ∀ x, (incrText c ++ Outbrace :: back).head? = some x → idigit x = false := by
  intro x hx
  cases c with
  | none => rw [← Option.some.inj hx]; rfl
  | some c => rw [← Option.some.inj hx]; rfl

theorem parseRange_group (a b : Numeral) (c : Option Numeral) (back : Bytes) :
    (incr c = 0 → parseRange (if c = none then 1 else 2) (groupText a b c back)
        (Outbrace :: back) = none) ∧
      (incr c ≠ 0 → ∃ r, parseRange (if c = none then 1 else 2) (groupText a b c back)
          (Outbrace :: back) = some r ∧ r.rstart = a.value ∧ r.rend = b.value ∧
        r.rincr = incr c ∧ r.minw (groupText a b c back) = int (minWidth a b c)) := by
  have ha : zstrtol (groupText a b c back) =
      (a.value, 46 :: 46 :: (b.bytes ++ (incrText c ++ Outbrace :: back))) :=
    zstrtol_numeral a fun x hx => by rw [← Option.some.inj hx]; rfl
  have hb : zstrtol (b.bytes ++ (incrText c ++ Outbrace :: back)) =
      (b.value, incrText c ++ Outbrace :: back) := zstrtol_numeral b (head_incrText c back)
  have hane := List.length_pos_iff.mpr a.bytes_ne
  have hbne := List.length_pos_iff.mpr b.bytes_ne
  have hlength : (groupText a b c back).length =
      a.bytes.length + (b.bytes ++ (incrText c ++ Outbrace :: back)).length + 2 := by
    unfold groupText
    rw [List.length_append, List.length_cons, List.length_cons]
    omega
  unfold parseRange
  rw [ha]
  dsimp only
  rw [if_neg (by
    rw [hlength, List.length_cons, List.length_cons, twoDots_dots]
    rintro (h | h)
    · omega
    · cases h), List.drop_succ_cons, List.drop_succ_cons, List.drop_zero, hb]
  dsimp only
  rw [if_neg (by simp only [List.length_append]; omega), hlength]
  have hwid (n m : Nat) : ((n + m + 2 : Nat) : Int) - ((m + 1 + 1 : Nat) : Int) = n := by
    push_cast
    ring
  cases c with
  | none =>
    refine ⟨fun h => absurd h (by decide), fun _ => ?_⟩
    have hincr : parseIncr 1 (46 :: 46 :: (b.bytes ++ (Outbrace :: back))) (Outbrace :: back)
        (Outbrace :: back) = some (1, int b.bytes.length, 0, none) := by
      unfold parseIncr
      rw [if_pos rfl]
      simp only [List.length_cons, List.length_append]
      refine congrArg (fun n => some (1, int n, 0, none)) ?_
      push_cast
      ring
    rw [show incrText none ++ Outbrace :: back = Outbrace :: back from rfl, if_pos rfl, hincr]
    refine ⟨_, rfl, rfl, rfl, rfl, ?_⟩
    unfold Range.minw minWidth groupText
    dsimp only
    rw [startsZero_numeral, List.drop_succ_cons, List.drop_succ_cons, List.drop_zero,
      startsZero_numeral, List.length_cons, List.length_cons, hwid]
    split_ifs
    · rfl
    · rfl
    · exact int_zero.symm
  | some c =>
    have hc : zstrtol (c.bytes ++ Outbrace :: back) = (c.value, Outbrace :: back) :=
      zstrtol_numeral c fun x hx => by rw [← Option.some.inj hx]; rfl
    have hcne := List.length_pos_iff.mpr c.bytes_ne
    have hincr : parseIncr 2 (46 :: 46 :: (b.bytes ++ (46 :: 46 :: (c.bytes ++ Outbrace :: back))))
        (46 :: 46 :: (c.bytes ++ Outbrace :: back)) (Outbrace :: back) =
          if int c.value = 0 then none
          else some (int c.value, int b.bytes.length, int c.bytes.length,
            some (46 :: 46 :: (c.bytes ++ Outbrace :: back))) := by
      unfold parseIncr
      rw [if_neg (by simp only [List.length_cons, List.length_append]; omega),
        if_pos ⟨rfl, twoDots_dots _⟩, List.drop_succ_cons, List.drop_succ_cons, List.drop_zero,
        hc]
      dsimp only
      by_cases hzero : int c.value = 0
      · rw [if_pos (.inr hzero), if_pos hzero]
      · rw [if_neg (by rintro (h | h); exacts [h rfl, hzero h]), if_neg hzero]
        have hwid2 : (((46 :: 46 :: (b.bytes ++
            (46 :: 46 :: (c.bytes ++ Outbrace :: back)))).length : Nat) : Int) -
              (46 :: 46 :: (c.bytes ++ Outbrace :: back) : Bytes).length - 2 =
              b.bytes.length := by
          simp only [List.length_cons, List.length_append]
          push_cast
          ring
        have hwid3 : (((46 :: 46 :: (c.bytes ++ Outbrace :: back) : Bytes).length : Nat) : Int) -
            (Outbrace :: back).length - 2 = c.bytes.length := by
          simp only [List.length_cons, List.length_append]
          push_cast
          ring
        rw [hwid2, hwid3]
    rw [show incrText (some c) ++ Outbrace :: back =
      46 :: 46 :: (c.bytes ++ Outbrace :: back) from rfl, if_neg (Option.some_ne_none c), hincr]
    show (int c.value = 0 → _) ∧ (int c.value ≠ 0 → _)
    refine ⟨fun hzero => by rw [if_pos hzero]; rfl, fun hne => ?_⟩
    rw [if_neg hne]
    refine ⟨_, rfl, rfl, rfl, rfl, ?_⟩
    unfold Range.minw minWidth groupText
    dsimp only
    rw [startsZero_numeral, List.drop_succ_cons, List.drop_succ_cons, List.drop_zero,
      startsZero_numeral, List.drop_succ_cons, List.drop_succ_cons, List.drop_zero,
      startsZero_numeral, List.length_cons, List.length_cons, hwid]
    split_ifs
    · rfl
    · rfl
    · rfl
    · exact int_zero.symm

end

def Safe (a b r : Int) : Prop :=
  r ≠ -2 ^ 31 ∧
    if b < a then ZLONG_MIN ≤ a - r.natAbs * ((a - b) / r.natAbs + 1)
    else (1 < r.natAbs → b - a < 2 ^ 63) ∧ ZLONG_MIN ≤ a - r.natAbs

instance (a b r : Int) : Decidable (Safe a b r) := inferInstanceAs (Decidable (_ ∧ _))

theorem safe_down {a b r : Int} (h : b < a) : Safe a b r ↔
    r ≠ -2 ^ 31 ∧ ZLONG_MIN ≤ a - r.natAbs * ((a - b) / r.natAbs + 1) := by
  unfold Safe
  rw [if_pos h]

theorem safe_up {a b r : Int} (h : ¬b < a) : Safe a b r ↔
    r ≠ -2 ^ 31 ∧ (1 < r.natAbs → b - a < 2 ^ 63) ∧ ZLONG_MIN ≤ a - r.natAbs := by
  unfold Safe
  rw [if_neg h]

theorem inserted_map {α : Type} (rev : Bool) (numbers : List α) (f : α → Bytes) :
    inserted rev (numbers.map f) = (if rev then numbers else numbers.reverse).map f := by
  cases rev
  · exact List.map_reverse.symm
  · rfl

theorem numbers_down {a b r : Int} (hr : r ≠ 0) (hb : ZLONG_MIN ≤ b) (hlt : b < a) :
    countDown ZLONG_MIN b r.natAbs a =
      if ZLONG_MIN ≤ a - r.natAbs * ((a - b) / r.natAbs + 1) then
        some (if 0 < r then between a b r else (between a b r).reverse)
      else none := by
  have hdiv : 0 ≤ (a - b) / r.natAbs := Int.ediv_nonneg (by omega) (by omega)
  have hcount : ((a - b) / (r.natAbs : Int)).toNat = (b - a).natAbs / r.natAbs := by
    rw [show a - b = ((b - a).natAbs : Int) by omega, ← Int.natCast_ediv, Int.toNat_natCast]
  have hmembers : members a (-(r.natAbs : Int)) ((b - a).natAbs / r.natAbs + 1) =
      if 0 < r then between a b r else (between a b r).reverse := by
    have hdir : direction a b = -1 := if_neg (by omega)
    unfold between
    dsimp only
    rw [hdir, show (-1 : Int) * (r.natAbs : Int) = -(r.natAbs : Int) by ring]
    split_ifs
    · rfl
    · rw [List.reverse_reverse]
  rw [countDown_eq (by omega) hb (by omega), ← hmembers, ← hcount]
  refine if_congr ?_ rfl rfl
  rw [Nat.cast_add, Int.toNat_of_nonneg hdiv, Nat.cast_one]

theorem numbers_up {a b r : Int} (hr : r ≠ 0) (ha : ZLONG_MIN ≤ a) (hle : a ≤ b) :
    countDown ZLONG_MIN a r.natAbs (b - (b - a) % r.natAbs) =
      if ZLONG_MIN ≤ a - r.natAbs then
        some (if 0 < r then (between a b r).reverse else between a b r)
      else none := by
  have hdiv : 0 ≤ (b - a) / r.natAbs := Int.ediv_nonneg (by omega) (by omega)
  have hsplit := Int.mul_ediv_add_emod (b - a) r.natAbs
  have hmod := Int.emod_nonneg (b - a) (show (r.natAbs : Int) ≠ 0 by omega)
  have hhigh : b - (b - a) % r.natAbs = a + r.natAbs * ((b - a) / r.natAbs) := by omega
  have hsame : (b - (b - a) % r.natAbs - a) / r.natAbs = (b - a) / r.natAbs := by
    rw [hhigh, show a + r.natAbs * ((b - a) / r.natAbs) - a = r.natAbs * ((b - a) / r.natAbs) by
      ring, Int.mul_ediv_cancel_left _ (by omega)]
  have hcount : ((b - a) / (r.natAbs : Int)).toNat = (b - a).natAbs / r.natAbs := by
    rw [show b - a = ((b - a).natAbs : Int) by omega, ← Int.natCast_ediv, Int.toNat_natCast]
    rfl
  have hpos : 0 ≤ (r.natAbs : Int) * ((b - a) / r.natAbs) := Int.mul_nonneg (by omega) hdiv
  have hmembers : members (b - (b - a) % r.natAbs) (-(r.natAbs : Int))
      ((b - a).natAbs / r.natAbs + 1) =
        if 0 < r then (between a b r).reverse else between a b r := by
    have hdir : direction a b = 1 := if_pos hle
    have hback := reverse_members a r.natAbs ((b - a).natAbs / r.natAbs)
    rw [← hcount, Int.toNat_of_nonneg hdiv, ← hhigh, hcount] at hback
    unfold between
    dsimp only
    rw [hdir, Int.one_mul, ← hback]
    split_ifs <;> rfl
  rw [countDown_eq (by omega) ha (by omega), hsame, hcount, hmembers]
  refine if_congr ?_ rfl rfl
  rw [← hcount, Nat.cast_add, Int.toNat_of_nonneg hdiv, Nat.cast_one, hhigh,
    show a + (r.natAbs : Int) * ((b - a) / r.natAbs) - r.natAbs * ((b - a) / r.natAbs + 1) =
      a - r.natAbs by ring]

theorem Range.numbers_spec (r : Range) (hr : r.rincr ≠ 0) (hstart : ZLONG_MIN ≤ r.rstart)
    (hend : ZLONG_MIN ≤ r.rend) :
    r.numbers.map (fun p => if p.1 then p.2 else p.2.reverse) =
      if Safe r.rstart r.rend r.rincr then some (between r.rstart r.rend r.rincr) else none := by
  have habs : (if r.rincr < 0 then -r.rincr else r.rincr) = r.rincr.natAbs := by
    split_ifs <;> omega
  unfold Range.numbers
  dsimp only
  rw [habs]
  by_cases hmin : r.rincr = -2 ^ 31
  · rw [if_pos hmin, if_neg fun h => h.1 hmin]
    rfl
  · rw [if_neg hmin]
    by_cases hdown : r.rend < r.rstart
    · rw [if_pos hdown, numbers_down hr hend hdown]
      by_cases hfits : ZLONG_MIN ≤ r.rstart - r.rincr.natAbs *
          ((r.rstart - r.rend) / r.rincr.natAbs + 1)
      · rw [if_pos hfits, if_pos ((safe_down hdown).mpr ⟨hmin, hfits⟩)]
        by_cases hpos : 0 < r.rincr
        · rw [if_pos hpos, decide_eq_false (by omega)]
          rfl
        · rw [if_neg hpos, decide_eq_true (by omega)]
          exact congrArg some (List.reverse_reverse _)
      · rw [if_neg hfits, if_neg fun h => hfits ((safe_down hdown).mp h).2]
        rfl
    · have hup := numbers_up hr hstart (Int.not_lt.mp hdown)
      have hresult : ((countDown ZLONG_MIN r.rstart r.rincr.natAbs
          (r.rend - (r.rend - r.rstart) % r.rincr.natAbs)).map
            fun numbers => (decide (r.rincr < 0), numbers)).map
              (fun p => if p.1 then p.2 else p.2.reverse) =
          if ZLONG_MIN ≤ r.rstart - r.rincr.natAbs then
            some (between r.rstart r.rend r.rincr) else none := by
        rw [hup]
        by_cases hfits : ZLONG_MIN ≤ r.rstart - r.rincr.natAbs
        · rw [if_pos hfits, if_pos hfits]
          by_cases hpos : 0 < r.rincr
          · rw [if_pos hpos, decide_eq_false (by omega)]
            exact congrArg some (List.reverse_reverse _)
          · rw [if_neg hpos, decide_eq_true (by omega)]
            rfl
        · rw [if_neg hfits, if_neg hfits]
          rfl
      rw [if_neg hdown]
      by_cases hone : (1 : Int) < r.rincr.natAbs
      · rw [if_pos hone]
        by_cases hover : 2 ^ 63 ≤ r.rend - r.rstart
        · rw [if_pos hover, if_neg fun h => by
            have hlt := ((safe_up hdown).mp h).2.1 (by omega)
            omega]
          rfl
        · rw [if_neg hover, hresult]
          exact if_congr ⟨fun h => (safe_up hdown).mpr ⟨hmin, fun _ => by omega, h⟩,
            fun h => ((safe_up hdown).mp h).2.2⟩ rfl rfl
      · have hmod : (r.rend - r.rstart) % (r.rincr.natAbs : Int) = 0 := by
          rw [show (r.rincr.natAbs : Int) = 1 by omega, Int.emod_one]
        rw [hmod, Int.sub_zero] at hresult
        rw [if_neg hone, hresult]
        exact if_congr
          ⟨fun h => (safe_up hdown).mpr ⟨hmin, fun h' => absurd h' (by omega), h⟩,
          fun h => ((safe_up hdown).mp h).2.2⟩ rfl rfl

/-! ## The texts -/

theorem printLong_eq (n : Int) :
    printLong n = (if n < 0 then [45] else []) ++ decimal n.natAbs := by
  cases n with
  | ofNat n => exact (if_neg (Int.not_lt.mpr (Int.natCast_nonneg n))).symm ▸ rfl
  | negSucc n => exact (if_pos (Int.negSucc_lt_zero n)).symm ▸ rfl

theorem zeroPadded_eq (width : Nat) (n : Int) :
    zeroPadded width n = (if n < 0 then [45] else []) ++
      (List.replicate (width - (printLong n).length) 48 ++ decimal n.natAbs) := by
  rw [printLong_eq]
  unfold zeroPadded
  split_ifs
  · rw [List.length_append, Nat.add_comm]
    rfl
  · rfl

theorem length_zeroPadded (width : Nat) (n : Int) :
    (zeroPadded width n).length = max width (printLong n).length := by
  have hlength := congrArg List.length (printLong_eq n)
  rw [List.length_append] at hlength
  rw [zeroPadded_eq, List.length_append, List.length_append, List.length_replicate]
  omega

theorem length_decimal_le {n k : Nat} (hk : 0 < k) (h : n < 10 ^ k) : (decimal n).length ≤ k := by
  unfold decimal
  split_ifs
  · exact hk
  · rw [List.length_map]
    exact length_printDigits_le (by decide) h

theorem value_lt {d : Bytes} (h : ∀ c ∈ d, idigit c = true) :
    Pattern.Numeric.value d < 10 ^ d.length := by
  have hlt := @readFrom_lt 10 0 (d.map digit) fun x hx => by
    obtain ⟨c, hc, rfl⟩ := List.mem_map.mp hx
    have hle := digit_le (h c hc)
    omega
  rw [List.length_map, Nat.zero_add, Nat.one_mul] at hlt
  exact hlt

theorem length_printLong_le (m : Numeral) {n : Int}
    (h : 0 ≤ n ∧ n ≤ m.value ∨ m.value ≤ n ∧ n < 0) :
    (printLong n).length ≤ m.bytes.length := by
  have hpos : 0 < m.digits.length := List.length_pos_iff.mpr m.digits_ne
  have hlt := value_lt m.idigits
  have hbytes : m.bytes.length = m.sign.length + m.digits.length := List.length_append
  unfold Numeral.value denoted at h
  rw [printLong_eq, List.length_append, hbytes]
  by_cases hsign : m.sign = []
  · rw [decide_eq_false (not_not.mpr hsign), if_neg Bool.false_ne_true] at h
    have hle := length_decimal_le (n := n.natAbs) hpos (by omega)
    rw [if_neg (by omega)]
    simp only [List.length_nil]
    omega
  · have hone := List.length_pos_iff.mpr hsign
    rw [decide_eq_true hsign, if_pos rfl] at h
    have hle := length_decimal_le (n := n.natAbs) hpos (by omega)
    split_ifs
    · simp only [List.length_singleton]
      omega
    · simp only [List.length_nil]
      omega

theorem length_printLong_lt {n : Int} (h : -2 ^ 63 ≤ n ∧ n < 2 ^ 63) :
    (printLong n).length ≤ 20 := by
  have hle := length_decimal_le (n := n.natAbs) (k := 19) (by decide) (by omega)
  rw [printLong_eq, List.length_append]
  split_ifs
  · simp only [List.length_singleton]
    omega
  · simp only [List.length_nil]
    omega

theorem digit_ofNat {d : Nat} (h : d < 10) :
    idigit (UInt8.ofNat (48 + d)) = true ∧ digit (UInt8.ofNat (48 + d)) = d := by
  have hnat : (UInt8.ofNat (48 + d)).toNat = 48 + d := by
    rw [UInt8.toNat_ofNat']
    omega
  refine ⟨(idigit_iff _).mpr (by omega), ?_⟩
  unfold digit
  omega

theorem idigit_decimal {n : Nat} {c : UInt8} (h : c ∈ decimal n) : idigit c = true := by
  obtain ⟨d, rfl⟩ := mem_decimal h
  exact (digit_ofNat d.isLt).1

theorem value_decimal (n : Nat) : Pattern.Numeric.value (decimal n) = n := by
  unfold decimal
  split_ifs with hzero
  · rw [hzero]
    rfl
  · unfold Pattern.Numeric.value
    have hsame : ((Digits.printDigits 10 n).map fun d => UInt8.ofNat (48 + d)).map digit =
        Digits.printDigits 10 n := by
      rw [List.map_map]
      conv_rhs => rw [← List.map_id (Digits.printDigits 10 n)]
      exact List.map_congr_left fun d hd => (digit_ofNat (printDigits_lt (by decide) hd)).2
    rw [hsame, readDigits_printDigits]

theorem value_zeros (k n : Nat) : Pattern.Numeric.value (List.replicate k 48 ++ decimal n) = n := by
  have hdecimal := value_decimal n
  unfold Pattern.Numeric.value at hdecimal ⊢
  rw [List.map_append, List.map_replicate, show digit 48 = 0 from rfl, readDigits_zeros, hdecimal]

theorem head_digits (k n : Nat) (rest : Bytes) :
    (List.replicate k 48 ++ decimal n) ≠ 45 :: rest := by
  intro h
  have hmem : (45 : UInt8) ∈ List.replicate k 48 ++ decimal n := h ▸ List.mem_cons_self
  rcases List.mem_append.mp hmem with h | h
  · exact absurd (List.eq_of_mem_replicate h) (by decide)
  · exact absurd (idigit_decimal h) (by decide)

theorem zeroPadded_injective (width : Nat) : Function.Injective (zeroPadded width) := by
  intro n m h
  rw [zeroPadded_eq, zeroPadded_eq] at h
  have hvalue (k k' : Nat) (h : List.replicate k 48 ++ decimal n.natAbs =
      List.replicate k' 48 ++ decimal m.natAbs) : n.natAbs = m.natAbs := by
    rw [← value_zeros k n.natAbs, h, value_zeros]
  by_cases hn : n < 0
  · by_cases hm : m < 0
    · rw [if_pos hn, if_pos hm] at h
      have habs := hvalue _ _ (List.append_cancel_left h)
      omega
    · rw [if_pos hn, if_neg hm, List.nil_append] at h
      exact absurd h.symm (head_digits _ _ _)
  · by_cases hm : m < 0
    · rw [if_neg hn, if_pos hm, List.nil_append] at h
      exact absurd h (head_digits _ _ _)
    · rw [if_neg hn, if_neg hm] at h
      have habs := hvalue _ _ (List.append_cancel_left h)
      omega

theorem getLast_zeroPadded (width : Nat) (n : Int) {c : UInt8}
    (h : (zeroPadded width n).getLast? = some c) : idigit c = true := by
  obtain ⟨d, ds, hds, -⟩ := decimal_cons n.natAbs
  rw [zeroPadded_eq, ← List.append_assoc, hds, List.getLast?_append_cons] at h
  exact idigit_decimal (hds ▸ List.mem_of_getLast? h)

theorem formatLong_ne_zeroPadded {width : Nat} (hwidth : 2 ^ 31 ≤ width) {n : Int}
    (hn : -2 ^ 63 ≤ n ∧ n < 2 ^ 63) (m : Int) :
    formatLong (int width) n ≠ zeroPadded width m := by
  intro h
  have hlength := length_zeroPadded width m
  have hshort := length_printLong_lt hn
  have hint : -2 ^ 31 ≤ int width ∧ int width < 2 ^ 31 := by
    unfold int
    omega
  rw [← h] at hlength
  unfold formatLong at h hlength
  by_cases hneg : int width < 0
  · rw [if_pos hneg] at h hlength
    rw [List.length_append, List.length_replicate] at hlength
    obtain ⟨k, hk⟩ : ∃ k, (int width).natAbs - (printLong n).length = k + 1 :=
      Nat.exists_eq_succ_of_ne_zero (by omega)
    rw [hk, List.replicate_succ', ← List.append_assoc] at h
    have hlast := getLast_zeroPadded width m (c := 32) (by rw [← h, List.getLast?_concat])
    exact absurd hlast (by decide)
  · rw [if_neg hneg, length_zeroPadded] at hlength
    omega

end NextBSD.Zsh.Braces
