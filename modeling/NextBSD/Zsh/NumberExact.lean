import Mathlib
import NextBSD.Zsh.Number

/-!
# When integers are read exactly

A wrapped number can be larger than the one before, and then nobody notices.  Both functions are
exact for the numbers whose residues give them away.
-/

namespace NextBSD.Zsh

open Digits

def returned (neg : Bool) (number : Nat) : Int :=
  if neg then zlong (-zlong number) else zlong number

theorem returned_eq_iff {neg : Bool} {n m : Nat} (hn : n < 2 ^ 64) (hm : Fits neg m) :
    returned neg n = denoted neg m ↔ n = m := by
  unfold Fits denoted at hm
  unfold returned denoted zlong
  cases neg <;> simp only [Bool.false_eq_true, if_false, if_true] at hm ⊢ <;> omega

theorem not_fits_iff {neg : Bool} {n : Nat} (hn : n < 2 ^ 64) :
    (zlong n < 0 ∧ (neg = false ∨ n % 2 ^ 63 ≠ 0)) ↔ ¬ Fits neg n := by
  unfold Fits denoted zlong
  cases neg <;> simp only [Bool.false_eq_true, Bool.true_eq_false, if_false, if_true, false_or,
    true_or, and_true] <;> omega

theorem lt_of_fits {neg : Bool} {n : Nat} (h : Fits neg n) : n < 2 ^ 64 := by
  unfold Fits denoted at h
  cases neg <;> simp only [Bool.false_eq_true, if_false, if_true] at h <;> omega

theorem fits_of_lt {neg : Bool} {n : Nat} (h : n < 2 ^ 63) : Fits neg n := by
  unfold Fits denoted
  cases neg <;> simp only [Bool.false_eq_true, if_false, if_true] <;> omega

/-! ## `zstrtol_underscore` -/

theorem BasePart.bounds {asked : Int} (hasked : asked = 0 ∨ (2 ≤ asked ∧ asked ≤ 36)) {base : Nat}
    {front text : Bytes} (h : BasePart asked base front text) : 2 ≤ base ∧ base ≤ 36 := by
  rcases h with ⟨-, ⟨rfl, -⟩ | ⟨rfl, -⟩ | ⟨rfl, -⟩ | ⟨rfl, -⟩⟩ | ⟨hne, heq, -⟩
  · decide
  · decide
  · decide
  · decide
  · have hrange := hasked.resolve_left hne
    omega

theorem residue_lt (base : Nat) (digits : List Nat) : residue base (2 ^ 64) digits < 2 ^ 64 :=
  Nat.mod_lt _ (by decide)

/-- What comes out is one of three: the residue, which fits; the residue without its last digit;
or the residue of what stands before the first digit at which it falls. -/
theorem zstrtolUnderscore_cases {s : Bytes} {asked : Int}
    (hasked : asked = 0 ∨ (2 ≤ asked ∧ asked ≤ 36)) {underscore neg : Bool} {base : Nat}
    {run rest : Bytes} (h : Parts s asked underscore neg base run rest) :
    ∃ n message, zstrtolUnderscore s asked underscore =
        { value := returned neg n, message := message, endp := some rest } ∧
      ((Ascends base (2 ^ 64) (digitsOf base run) ∧
          Fits neg (residue base (2 ^ 64) (digitsOf base run)) ∧
          n = residue base (2 ^ 64) (digitsOf base run) ∧ message = none) ∨
        (Ascends base (2 ^ 64) (digitsOf base run) ∧
          ¬ Fits neg (residue base (2 ^ 64) (digitsOf base run)) ∧
          n = residue base (2 ^ 64) (digitsOf base run) / base ∧
          ∃ count text, message = some (.truncated count text)) ∨
        (∃ front d, FallsAt base (2 ^ 64) (digitsOf base run) front d ∧
          n = residue base (2 ^ 64) front ∧
          ∃ count text, message = some (.truncated count text))) := by
  have hnonneg : 0 ≤ asked := by omega
  obtain ⟨signed, text, hsigned, htext, hspan⟩ := (parts_iff hnonneg).mp h
  obtain ⟨rfl, hrun, hrest⟩ := span_eq_iff.mp hspan
  obtain ⟨front, -, hfront⟩ := (skipAsked_eq_iff hnonneg).mp htext
  obtain ⟨hlow, hhigh⟩ := hfront.bounds hasked
  have hbased : (if asked = 0 then (((skipBase 8 signed).1 : Int), (skipBase 8 signed).2)
      else (asked, signed)) = ((base : Int), run ++ rest) := by
    unfold skipAsked at htext
    by_cases hzero : asked = 0
    · rw [if_pos hzero] at htext ⊢
      rw [htext]
    · rw [if_neg hzero] at htext ⊢
      obtain ⟨hbase, hsame⟩ := Prod.mk.inj htext
      rw [← hbase, hsame, Int.toNat_of_nonneg hnonneg]
  obtain ⟨trunc, hloop, htrunc⟩ := digitLoop_run hhigh hrun hrest 0 0
  have hrange : ¬ ((base : Int) < 2 ∨ 36 < (base : Int)) := by omega
  have heq : zstrtolUnderscore s asked underscore =
      { value := returned neg
          (repairSign neg base (digitLoop underscore base 0 none 0 (run ++ rest))).number
        message := (repairSign neg base
          (digitLoop underscore base 0 none 0 (run ++ rest))).trunc.map fun digits =>
            .truncated digits (run ++ rest)
        endp := some (repairSign neg base
          (digitLoop underscore base 0 none 0 (run ++ rest))).rest } := by
    unfold zstrtolUnderscore
    rw [hsigned]
    dsimp only
    rw [hbased]
    dsimp only
    rw [if_neg hrange, Int.toNat_natCast]
    rfl
  rw [hloop] at heq
  rcases readWrapping_cases base (2 ^ 64) (digitsOf base run) with
    ⟨hread, hascends⟩ | ⟨front, d, hfalls, hread⟩
  · rw [hread] at heq htrunc
    obtain rfl := htrunc.mpr rfl
    by_cases hfits : Fits neg (residue base (2 ^ 64) (digitsOf base run))
    · have hstay : ¬ ((none : Option Nat) = none ∧
          zlong (residue base (2 ^ 64) (digitsOf base run)) < 0 ∧
          (neg = false ∨ residue base (2 ^ 64) (digitsOf base run) % 2 ^ 63 ≠ 0)) :=
        fun hno => (not_fits_iff (residue_lt base _)).mp hno.2 hfits
      unfold repairSign at heq
      rw [if_neg hstay] at heq
      exact ⟨_, _, heq, Or.inl ⟨hascends, hfits, rfl, rfl⟩⟩
    · have hcut : (none : Option Nat) = none ∧
          zlong (residue base (2 ^ 64) (digitsOf base run)) < 0 ∧
          (neg = false ∨ residue base (2 ^ 64) (digitsOf base run) % 2 ^ 63 ≠ 0) :=
        ⟨rfl, (not_fits_iff (residue_lt base _)).mpr hfits⟩
      unfold repairSign at heq
      rw [if_pos hcut] at heq
      exact ⟨_, _, heq, Or.inr (Or.inl ⟨hascends, hfits, rfl, _, _, rfl⟩)⟩
  · rw [hread] at heq htrunc
    obtain ⟨cut, rfl⟩ := Option.ne_none_iff_exists'.mp
      fun hnone => Bool.false_ne_true (htrunc.mp hnone)
    unfold repairSign at heq
    rw [if_neg fun hno => Option.some_ne_none _ hno.1] at heq
    exact ⟨_, _, heq, Or.inr (Or.inr ⟨front, d, hfalls, rfl, _, _, rfl⟩)⟩

/-- The digits do not fit, and this is noticed where a prefix of them is left. -/
def Caught (neg : Bool) (base : Nat) (digits : List Nat) : Prop :=
  (Ascends base (2 ^ 64) digits ∧ ¬ Fits neg (residue base (2 ^ 64) digits) ∧
    OfPrefix neg base digits (residue base (2 ^ 64) digits / base)) ∨
  ∃ front d, FallsAt base (2 ^ 64) digits front d ∧
    OfPrefix neg base digits (residue base (2 ^ 64) front)

theorem exists_prefix_iff {neg : Bool} {base n : Nat} {digits : List Nat} (hn : n < 2 ^ 64) :
    (∃ m, OfPrefix neg base digits m ∧ returned neg n = denoted neg m) ↔
      OfPrefix neg base digits n := by
  constructor
  · rintro ⟨m, ⟨front, hfront, hne, hfits, rfl⟩, hvalue⟩
    obtain rfl := (returned_eq_iff hn hfits).mp hvalue
    exact ⟨front, hfront, hne, hfits, rfl⟩
  · rintro ⟨front, hfront, hne, hfits, rfl⟩
    exact ⟨_, ⟨front, hfront, hne, hfits, rfl⟩, (returned_eq_iff hn hfits).mpr rfl⟩

theorem ascends_of_fits {neg : Bool} {base : Nat} (hbase : 2 ≤ base) {digits : List Nat}
    (h : Fits neg (readDigits base digits)) : Ascends base (2 ^ 64) digits ∧
      residue base (2 ^ 64) digits = readDigits base digits :=
  ⟨ascends_of_lt (by omega) (lt_of_fits h), Nat.mod_eq_of_lt (lt_of_fits h)⟩

theorem readsExactly_iff {s : Bytes} {asked : Int} (hasked : asked = 0 ∨ (2 ≤ asked ∧ asked ≤ 36))
    {underscore neg : Bool} {base : Nat} {run rest : Bytes}
    (h : Parts s asked underscore neg base run rest) :
    ReadsExactly s asked underscore ↔ Fits neg (readDigits base (digitsOf base run)) ∨
      Caught neg base (digitsOf base run) := by
  have hnonneg : 0 ≤ asked := by omega
  have hbase : 2 ≤ base := by
    obtain ⟨_, _, front, _, _, _, _, hfront, _⟩ := h
    exact (hfront.bounds hasked).1
  obtain ⟨n, message, heq, hcases⟩ := zstrtolUnderscore_cases hasked h
  have hself : ReadsExactly s asked underscore ↔
      (Fits neg (readDigits base (digitsOf base run)) →
        returned neg n = denoted neg (readDigits base (digitsOf base run)) ∧ message = none) ∧
      (¬ Fits neg (readDigits base (digitsOf base run)) →
        (∃ count text, message = some (.truncated count text)) ∧
          ∃ m, OfPrefix neg base (digitsOf base run) m ∧ returned neg n = denoted neg m) := by
    unfold ReadsExactly
    rw [heq]
    constructor
    · rintro ⟨neg', base', run', rest', h', -, hfit, hcut⟩
      obtain ⟨rfl, rfl, rfl, rfl⟩ := h.unique hnonneg h'
      exact ⟨hfit, hcut⟩
    · rintro ⟨hfit, hcut⟩
      exact ⟨neg, base, run, rest, h, rfl, hfit, hcut⟩
  rw [hself]
  clear hself heq h
  generalize digitsOf base run = digits at hcases ⊢
  by_cases hfits : Fits neg (readDigits base digits)
  · obtain ⟨hascends, hresidue⟩ := ascends_of_fits hbase hfits
    refine iff_of_true ⟨fun _ => ?_, fun hno => absurd hfits hno⟩ (Or.inl hfits)
    rcases hcases with ⟨-, -, rfl, hmessage⟩ | ⟨-, hno, -⟩ | ⟨front, d, hfalls, -⟩
    · rw [hresidue]
      exact ⟨(returned_eq_iff (lt_of_fits hfits) hfits).mpr rfl, hmessage⟩
    · rw [hresidue] at hno
      exact absurd hfits hno
    · exact absurd hascends hfalls.not_ascends
  · have hcut : ((Fits neg (readDigits base digits) →
        returned neg n = denoted neg (readDigits base digits) ∧ message = none) ∧
      (¬ Fits neg (readDigits base digits) →
        (∃ count text, message = some (.truncated count text)) ∧
          ∃ m, OfPrefix neg base digits m ∧ returned neg n = denoted neg m)) ↔
        (∃ count text, message = some (.truncated count text)) ∧
          ∃ m, OfPrefix neg base digits m ∧ returned neg n = denoted neg m :=
      ⟨fun hall => hall.2 hfits, fun hall => ⟨fun hno => absurd hno hfits, fun _ => hall⟩⟩
    rw [hcut, or_iff_right hfits]
    rcases hcases with ⟨hascends, hfit, rfl, rfl⟩ | ⟨hascends, hno, rfl, hmessage⟩ |
      ⟨front, d, hfalls, rfl, hmessage⟩
    · -- nothing is noticed
      refine iff_of_false ?_ ?_
      · rintro ⟨⟨count, text, hnone⟩, -⟩
        exact Option.some_ne_none _ hnone.symm
      · rintro (⟨-, hno, -⟩ | ⟨front, d, hfalls, -⟩)
        · exact hno hfit
        · exact hfalls.not_ascends hascends
    · have hn : residue base (2 ^ 64) digits / base < 2 ^ 64 :=
        Nat.lt_of_le_of_lt (Nat.div_le_self _ _) (residue_lt base digits)
      rw [exists_prefix_iff hn, and_iff_right hmessage]
      constructor
      · exact fun hprefix => Or.inl ⟨hascends, hno, hprefix⟩
      · rintro (⟨-, -, hfront⟩ | ⟨front, d, hfalls, -⟩)
        · exact hfront
        · exact absurd hascends hfalls.not_ascends
    · rw [exists_prefix_iff (residue_lt base front), and_iff_right hmessage]
      constructor
      · exact fun hfront => Or.inr ⟨front, d, hfalls, hfront⟩
      · rintro (⟨hascends, -⟩ | ⟨front', d', hfalls', hfront⟩)
        · exact absurd hascends hfalls.not_ascends
        · rw [hfalls.unique hfalls']
          exact hfront

/-! ## `zstrtoul_underscore` -/

def leading (front : Bytes) : List Nat := if front = [48] then [0] else []

/-- The whole string is a sign, a prefix for the base and a run of digits, which may be empty. -/
def Whole (octalZeroes : Bool) (s : Bytes) (base : Nat) (digits : List Nat) : Prop :=
  ∃ sign front run, s = sign ++ (front ++ run) ∧ (sign = [] ∨ sign = [43]) ∧
    BaseText (if octalZeroes then 8 else 10) base front run ∧
    (∀ c ∈ run, InRun true base c) ∧ digits = leading front ++ digitsOf base run

/-- `zstrtoul_underscore` takes a string only with its value. -/
def ReadsWhole (octalZeroes : Bool) (s : Bytes) : Prop :=
  ∀ v, zstrtoulUnderscore octalZeroes s = some v →
    ∃ base digits, Whole octalZeroes s base digits ∧ digits ≠ [] ∧ v = readDigits base digits ∧
      v < 2 ^ 64

def skipPlus (s : Bytes) : Bytes := if s.head? = some 43 then s.tail else s

theorem whole_iff {octalZeroes : Bool} {s : Bytes} {base : Nat} {digits : List Nat} :
    Whole octalZeroes s base digits ↔ ∃ front run, skipPlus s = front ++ run ∧
      skipBase (if octalZeroes then 8 else 10) (skipPlus s) = (base, run) ∧
      (∀ c ∈ run, InRun true base c) ∧ digits = leading front ++ digitsOf base run := by
  constructor
  · rintro ⟨sign, front, run, rfl, hsign, hfront, hrun, rfl⟩
    have hplus : skipPlus (sign ++ (front ++ run)) = front ++ run := by
      rcases hsign with rfl | rfl
      · have hhead : (front ++ run).head? ≠ some 43 := by
          rcases hfront with ⟨rfl, rfl, -⟩ | ⟨-, rfl | rfl⟩ | ⟨-, rfl | rfl⟩ | ⟨-, rfl, -⟩
          · intro hhead
            have hnot : ¬ InRun true 10 43 := by decide
            refine hnot (hrun 43 ?_)
            rw [List.nil_append] at hhead
            rw [head?_eq_some_cons hhead]
            exact List.mem_cons_self
          all_goals exact (by decide : (some (48 : UInt8)) ≠ some 43)
        unfold skipPlus
        rw [List.nil_append, if_neg hhead]
      · rfl
    refine ⟨front, run, hplus, ?_, hrun, rfl⟩
    rw [hplus]
    exact skipBase_eq_iff.mpr ⟨front, rfl, hfront⟩
  · rintro ⟨front, run, hplus, hskip, hrun, rfl⟩
    obtain ⟨front', hsame, hfront⟩ := skipBase_eq_iff.mp hskip
    obtain rfl : front = front' := List.append_cancel_right (hplus.symm.trans hsame)
    by_cases hhead : s.head? = some 43
    · unfold skipPlus at hplus
      rw [if_pos hhead] at hplus
      exact ⟨[43], front, run, by rw [head?_eq_some_cons hhead, hplus]; rfl, Or.inr rfl, hfront,
        hrun, rfl⟩
    · unfold skipPlus at hplus
      rw [if_neg hhead] at hplus
      exact ⟨[], front, run, hplus, Or.inl rfl, hfront, hrun, rfl⟩

theorem Whole.unique {octalZeroes : Bool} {s : Bytes} {base base' : Nat}
    {digits digits' : List Nat} (h : Whole octalZeroes s base digits)
    (h' : Whole octalZeroes s base' digits') : base' = base ∧ digits' = digits := by
  obtain ⟨front, run, hplus, hskip, -, rfl⟩ := whole_iff.mp h
  obtain ⟨front', run', hplus', hskip', -, rfl⟩ := whole_iff.mp h'
  obtain ⟨rfl, rfl⟩ := Prod.mk.inj (hskip.symm.trans hskip')
  obtain rfl := List.append_cancel_right (hplus.symm.trans hplus')
  exact ⟨rfl, rfl⟩

theorem unsignedLoop_eq_some_nil {base : Nat} (hbase : base ≤ 36) {s : Bytes} {number v : Nat} :
    unsignedLoop base number s = some (v, []) ↔ (∀ c ∈ s, InRun true base c) ∧
      readWrapping base (2 ^ 64) number (digitsOf base s) = (v, true) := by
  induction s generalizing number with
  | nil =>
    constructor
    · intro h
      obtain ⟨rfl, -⟩ := Prod.mk.inj (Option.some.inj h)
      exact ⟨fun c hc => absurd hc List.not_mem_nil, rfl⟩
    · rintro ⟨-, h⟩
      obtain ⟨rfl, -⟩ := Prod.mk.inj h
      rfl
  | cons c s ih =>
    rw [List.forall_mem_cons]
    unfold unsignedLoop
    by_cases hunder : c = 95
    · have hin : InRun true base c := Or.inr ⟨rfl, hunder⟩
      have hnone : zdigit base c = none := by rw [hunder, zdigit_underscore base hbase]
      rw [if_pos hunder, ih, digitsOf_cons_of_none hnone, and_iff_right hin]
    · rw [if_neg hunder]
      cases hd : zdigit base c with
      | none =>
        have hout : ¬ InRun true base c := by
          rintro (hdigit | ⟨-, heq⟩)
          · rw [hd] at hdigit
            exact Bool.false_ne_true hdigit
          · exact hunder heq
        refine iff_of_false (fun h => ?_) fun h => hout h.1.1
        exact List.cons_ne_nil _ _ (Prod.mk.inj (Option.some.inj h)).2
      | some d =>
        have hin : InRun true base c := Or.inl (by rw [hd]; rfl)
        rw [digitsOf_cons_of_some hd, and_iff_right hin]
        unfold readWrapping zulong
        dsimp only
        by_cases hfalls : (number * base + d) % 2 ^ 64 < number
        · rw [if_pos hfalls, if_pos hfalls]
          exact iff_of_false (Option.some_ne_none _).symm
            fun h => Bool.false_ne_true (Prod.mk.inj h.2).2
        · rw [if_neg hfalls, if_neg hfalls]
          exact ih

theorem readWrapping_leading (base : Nat) (front : Bytes) (digits : List Nat) :
    readWrapping base (2 ^ 64) 0 (leading front ++ digits) =
      readWrapping base (2 ^ 64) 0 digits := by
  unfold leading
  by_cases h : front = [48]
  · have hzero : (0 * base + 0) % 2 ^ 64 = 0 := by omega
    rw [if_pos h, List.singleton_append]
    conv_lhs => unfold readWrapping
    rw [hzero, if_neg (Nat.lt_irrefl 0)]
  · rw [if_neg h, List.nil_append]

theorem zstrtoulUnderscore_eq_some {octalZeroes : Bool} {s : Bytes} {v : Nat} :
    zstrtoulUnderscore octalZeroes s = some v ↔
      ∃ base digits, Whole octalZeroes s base digits ∧ Ascends base (2 ^ 64) digits ∧
        v = residue base (2 ^ 64) digits := by
  have hread : ∀ base digits, readWrapping base (2 ^ 64) 0 digits = (v, true) ↔
      Ascends base (2 ^ 64) digits ∧ v = residue base (2 ^ 64) digits := by
    intro base digits
    rcases readWrapping_cases base (2 ^ 64) digits with ⟨heq, hascends⟩ | ⟨front, d, hfalls, heq⟩
    · rw [heq]
      exact ⟨fun h => ⟨hascends, (Prod.mk.inj h).1.symm⟩, fun h => by rw [h.2]⟩
    · rw [heq]
      exact iff_of_false (fun h => Bool.false_ne_true (Prod.mk.inj h).2)
        fun h => hfalls.not_ascends h.1
  obtain ⟨base, run, hskip⟩ : ∃ base run,
      skipBase (if octalZeroes then 8 else 10) (skipPlus s) = (base, run) := ⟨_, _, rfl⟩
  obtain ⟨front, hplus, hfront⟩ := skipBase_eq_iff.mp hskip
  have hwhole : (∀ c ∈ run, InRun true base c) ↔
      Whole octalZeroes s base (leading front ++ digitsOf base run) := by
    constructor
    · exact fun hrun => whole_iff.mpr ⟨front, run, hplus, hskip, hrun, rfl⟩
    · intro h
      obtain ⟨front', run', -, hskip', hrun, -⟩ := whole_iff.mp h
      obtain ⟨-, rfl⟩ := Prod.mk.inj (hskip.symm.trans hskip')
      exact hrun
  have hbase : base ≤ 36 := by
    rcases hfront with ⟨rfl, -⟩ | ⟨rfl, -⟩ | ⟨rfl, -⟩ | ⟨rfl, -⟩
    · decide
    · decide
    · decide
    · cases octalZeroes <;> decide
  have hloop : zstrtoulUnderscore octalZeroes s = some v ↔
      unsignedLoop base 0 run = some (v, []) := by
    have hskip' : skipBase (if octalZeroes then 8 else 10)
        (if s.head? = some 43 then s.tail else s) = (base, run) := hskip
    unfold zstrtoulUnderscore
    dsimp only
    rw [hskip']
    dsimp only
    rcases unsignedLoop base 0 run with - | ⟨number, - | ⟨c, rest⟩⟩
    · exact iff_of_false (Option.some_ne_none _).symm (Option.some_ne_none _).symm
    · exact ⟨fun h => by rw [Option.some.inj h], fun h => by rw [(Prod.mk.inj (Option.some.inj h)).1]⟩
    · exact iff_of_false (Option.some_ne_none _).symm
        fun h => List.cons_ne_nil _ _ (Prod.mk.inj (Option.some.inj h)).2
  rw [hloop, unsignedLoop_eq_some_nil hbase, hwhole, ← readWrapping_leading base front, hread]
  constructor
  · rintro ⟨h, hascends, hv⟩
    exact ⟨base, _, h, hascends, hv⟩
  · rintro ⟨base', digits, h, hascends, hv⟩
    obtain ⟨front', run', hplus', hskip', -, hdigits⟩ := whole_iff.mp h
    obtain ⟨rfl, rfl⟩ := Prod.mk.inj (hskip.symm.trans hskip')
    obtain rfl := List.append_cancel_right (hplus.symm.trans hplus')
    subst hdigits
    exact ⟨h, hascends, hv⟩

theorem readsWhole_iff {octalZeroes : Bool} {s : Bytes} :
    ReadsWhole octalZeroes s ↔ ∀ base digits, Whole octalZeroes s base digits →
      Ascends base (2 ^ 64) digits → digits ≠ [] ∧ readDigits base digits < 2 ^ 64 := by
  constructor
  · intro h base digits hwhole hascends
    obtain ⟨base', digits', hwhole', hne, hvalue, hlt⟩ :=
      h _ (zstrtoulUnderscore_eq_some.mpr ⟨base, digits, hwhole, hascends, rfl⟩)
    obtain ⟨rfl, rfl⟩ := hwhole.unique hwhole'
    exact ⟨hne, hvalue ▸ hlt⟩
  · intro h v hv
    obtain ⟨base, digits, hwhole, hascends, rfl⟩ := zstrtoulUnderscore_eq_some.mp hv
    obtain ⟨hne, hlt⟩ := h base digits hwhole hascends
    have hresidue : residue base (2 ^ 64) digits = readDigits base digits := Nat.mod_eq_of_lt hlt
    rw [hresidue]
    exact ⟨base, digits, hwhole, hne, rfl, hlt⟩

/-! ## The reader of history files

`zstrtol` of `hist.c` is this one where numbers do not overflow. -/

theorem inRun_of_all {underscore : Bool} {base : Nat} {run : Bytes}
    (h : run.all (InRun underscore base ·) = true) : ∀ c ∈ run, InRun underscore base c :=
  fun c hc => of_decide_eq_true (List.all_eq_true.mp h c hc)

/-- `20496382304121724017`: the last digit leaves the residue of the digits before it. -/
def wrapped : Bytes :=
  [50, 48, 52, 57, 54, 51, 56, 50, 51, 48, 52, 49, 50, 49, 55, 50, 52, 48, 49, 55]

end NextBSD.Zsh
