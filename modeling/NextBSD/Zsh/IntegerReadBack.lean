import NextBSD.Zsh.MathConstant

/-!
# Integers that are printed and read back

The minus is not part of the number that `zstrtol_underscore` is given, so its exception for the
lowest number does not help here.
-/

namespace NextBSD.Zsh

open Digits Grouping

/-! ## Digits as text -/

theorem toNat_digitByte {d : Nat} (h : d < 36) :
    (digitByte d).toNat = if d < 10 then 48 + d else d + 55 := by
  unfold digitByte
  split
  · rw [UInt8.toNat_ofNat']
    omega
  · rw [UInt8.toNat_ofNat']
    omega

theorem letter_value : ∀ d < 36, 10 ≤ d → ((d + 55) &&& 0x1f) + 9 = d := by decide

theorem zdigit_digitByte {base d : Nat} (hbase : base ≤ 36) (hd : d < base) :
    zdigit base (digitByte d) = some d := by
  have hbyte := toNat_digitByte (Nat.lt_of_lt_of_le hd hbase)
  unfold zdigit
  by_cases hten : base ≤ 10
  · rw [if_pos (by omega : d < 10)] at hbyte
    rw [if_pos hten, hbyte, if_pos (by omega)]
    congr 1
    omega
  · rw [if_neg hten]
    by_cases hdigit : d < 10
    · rw [if_pos hdigit] at hbyte
      rw [if_pos ((idigit_iff _).mpr (by omega)), hbyte]
      congr 1
      omega
    · rw [if_neg hdigit] at hbyte
      rw [if_neg (fun h => by have := (idigit_iff _).mp h; omega), hbyte, if_pos (by omega),
        letter_value d (by omega) (by omega)]

theorem digitsOf_digitByte {base : Nat} (hbase : base ≤ 36) {digits : List Nat}
    (h : ∀ d ∈ digits, d < base) : digitsOf base (digits.map digitByte) = digits := by
  induction digits with
  | nil => rfl
  | cons d digits ih =>
    obtain ⟨hd, hdigits⟩ := List.forall_mem_cons.mp h
    rw [List.map_cons, digitsOf_cons_of_some (zdigit_digitByte hbase hd), ih hdigits]

theorem digitsOf_filter {base : Nat} (hbase : base ≤ 36) (run : Bytes) :
    digitsOf base (run.filter (· ≠ 95)) = digitsOf base run := by
  induction run with
  | nil => rfl
  | cons c run ih =>
    by_cases hc : c = 95
    · subst hc
      rw [List.filter_cons_of_neg (by simp), ih,
        digitsOf_cons_of_none (zdigit_underscore base hbase)]
    · rw [List.filter_cons_of_pos (by simpa using hc)]
      unfold digitsOf at ih ⊢
      rw [List.filterMap_cons, List.filterMap_cons, ih]

theorem underscore_not_mem {base : Nat} (hbase : base ≤ 36) {digits : List Nat}
    (h : ∀ d ∈ digits, d < base) : 95 ∉ digits.map digitByte := by
  intro hmem
  obtain ⟨d, hd, heq⟩ := List.mem_map.mp hmem
  have hsome := zdigit_digitByte hbase (h d hd)
  rw [heq, zdigit_underscore base hbase] at hsome
  exact absurd hsome nofun

structure GroupedDigits (base n : Nat) (grouped : Bytes) : Prop where
  filter : grouped.filter (· ≠ 95) = (intDigits base n).map digitByte
  head : grouped.head? = ((intDigits base n).map digitByte).head?
  zero : n = 0 → grouped = [48]

theorem GroupedDigits.of_groups {base n : Nat} (hlow : 2 ≤ base) (hhigh : base ≤ 36)
    {underscore : Int} {grouped : Bytes}
    (hnone : underscore ≤ 0 → grouped = (intDigits base n).map digitByte)
    (hgroups : 0 < underscore →
      FromRight 95 underscore.toNat ((intDigits base n).map digitByte) grouped) :
    GroupedDigits base n grouped := by
  have hclean : 95 ∉ (intDigits base n).map digitByte :=
    underscore_not_mem hhigh fun d hd => intDigits_lt hlow hd
  by_cases h : underscore ≤ 0
  · rw [hnone h]
    refine ⟨List.filter_eq_self.mpr fun x hx => decide_eq_true fun heq => hclean (heq ▸ hx), rfl,
      ?_⟩
    rintro rfl
    rfl
  · have hright := hgroups (by omega)
    refine ⟨FromRight.filter hright hclean, FromRight.head? hright, ?_⟩
    rintro rfl
    have hlen := FromRight.length hright (by omega)
    have hhead := head?_eq_some_cons (FromRight.head? hright)
    rw [hhead] at hlen ⊢
    change grouped.tail.length + 1 = 1 + 0 / underscore.toNat at hlen
    rw [Nat.zero_div] at hlen
    rw [List.length_eq_zero_iff.mp (by omega : grouped.tail.length = 0)]
    rfl

section Grouped

variable {base n : Nat} {grouped : Bytes} (h : GroupedDigits base n grouped) (hlow : 2 ≤ base)

include h hlow

theorem GroupedDigits.mem {c : UInt8} (hc : c ∈ grouped) :
    c = 95 ∨ ∃ d < base, c = digitByte d := by
  by_cases hunder : c = 95
  · exact Or.inl hunder
  · have hmem : c ∈ grouped.filter (· ≠ 95) := List.mem_filter.mpr ⟨hc, by simpa using hunder⟩
    rw [h.filter] at hmem
    obtain ⟨d, hd, rfl⟩ := List.mem_map.mp hmem
    exact Or.inr ⟨d, intDigits_lt hlow hd, rfl⟩

theorem GroupedDigits.cons : ∃ d rest, d < base ∧ (n ≠ 0 → d ≠ 0) ∧
    grouped = digitByte d :: rest := by
  have hhead := h.head
  obtain ⟨d, ds, hdigits⟩ := List.exists_cons_of_ne_nil (@intDigits_ne_nil base n hlow)
  rw [hdigits, List.map_cons, List.head?_cons] at hhead
  have hd : d < base := intDigits_lt hlow (hdigits ▸ List.mem_cons_self)
  refine ⟨d, _, hd, fun hn => ?_, head?_eq_some_cons hhead⟩
  rintro rfl
  rw [intDigits_pos hn] at hdigits
  exact head?_printDigits (congrArg List.head? hdigits)

variable (hhigh : base ≤ 36)

include hhigh

theorem GroupedDigits.digitsOf : Zsh.digitsOf base grouped = intDigits base n := by
  rw [← digitsOf_filter hhigh, h.filter, digitsOf_digitByte hhigh fun d hd => intDigits_lt hlow hd]

theorem GroupedDigits.inRun {c : UInt8} (hc : c ∈ grouped) : InRun true base c := by
  rcases h.mem hlow hc with hunder | ⟨d, hd, rfl⟩
  · exact Or.inr ⟨rfl, hunder⟩
  · exact Or.inl (by rw [zdigit_digitByte hhigh hd]; rfl)

end Grouped

/-- What comes of a number that is at most one too large: the number, or a message. -/
def ReadOutcome (n : Nat) (l : Int) (messages : List MathMessage) : Prop :=
  (n < 2 ^ 63 → l = n ∧ messages = []) ∧ (n = 2 ^ 63 → messages ≠ [])

theorem readInteger_eq {st : MathState} (herr : st.errflag = false) {asked : Int}
    (hasked : asked = 0 ∨ (2 ≤ asked ∧ asked ≤ 36)) {base : Nat} {run rest : Bytes}
    (h : Parts st.ptr asked true false base run rest)
    (hn : readDigits base (digitsOf base run) ≤ 2 ^ 63) :
    ∃ l messages, st.readInteger asked =
        (l, { st with ptr := rest, messages := st.messages ++ messages }) ∧
      ReadOutcome (readDigits base (digitsOf base run)) l messages := by
  have hbase : 2 ≤ base := by
    obtain ⟨_, _, front, _, _, _, _, hfront, _⟩ := h
    exact (hfront.bounds hasked).1
  obtain ⟨number, message, heq, hcases⟩ := zstrtolUnderscore_cases hasked h
  generalize digitsOf base run = digits at hn hcases ⊢
  have hresidue : residue base (2 ^ 64) digits = readDigits base digits :=
    Nat.mod_eq_of_lt (by omega)
  have hascends : Ascends base (2 ^ 64) digits := ascends_of_lt (by omega) (by omega)
  rw [hresidue] at hcases
  have hlarge : ¬ Fits false (2 ^ 63) := fun h => absurd h.2 (by decide)
  unfold MathState.readInteger
  rw [heq]
  rcases hcases with ⟨-, hfits, rfl, rfl⟩ | ⟨-, hno, -, count, text, rfl⟩ | ⟨front, d, hfalls, -⟩
  · refine ⟨_, [], ?_, fun _ => ⟨(returned_eq_iff (by omega) hfits).mpr rfl, rfl⟩, fun heq => ?_⟩
    · rw [List.append_nil]
      rfl
    · rw [heq] at hfits
      exact absurd hfits hlarge
  · refine ⟨returned false number, [.number (.truncated count text)], ?_, fun hlt => absurd (fits_of_lt hlt) hno,
      fun _ => List.cons_ne_nil _ _⟩
    unfold MathState.reportNumber MathState.report
    dsimp only
    rw [herr]
    rfl
  · exact absurd hascends hfalls.not_ascends

theorem idigit_plain {c : UInt8} (h : idigit c = true) :
    inblank c = false ∧ isDash c = false ∧ c ≠ 43 := by
  have hc := (idigit_iff _).mp h
  refine ⟨?_, ?_, ?_⟩
  · rw [Bool.eq_false_iff]
    intro hblank
    rcases (Bool.or_eq_true _ _).mp hblank with hblank | hblank
    · rcases (Bool.or_eq_true _ _).mp hblank with hblank | hblank
      · rw [of_decide_eq_true hblank] at h
        exact absurd h (by decide)
      · rw [of_decide_eq_true hblank] at h
        exact absurd h (by decide)
    · rw [of_decide_eq_true hblank] at h
      exact absurd h (by decide)
  · rw [Bool.eq_false_iff]
    intro hdash
    rcases (Bool.or_eq_true _ _).mp hdash with hdash | hdash
    · rw [of_decide_eq_true hdash] at h
      exact absurd h (by decide)
    · rw [of_decide_eq_true hdash] at h
      exact absurd h (by decide)
  · rintro rfl
    exact absurd h (by decide)

theorem digitByte_plain : ∀ d < 36, inblank (digitByte d) = false ∧
    isDash (digitByte d) = false ∧ digitByte d ≠ 43 := by decide

theorem inRun_ten {c : UInt8} : InRun true 10 c ↔ (idigit c || c = 95) = true := by
  unfold InRun zdigit
  rw [if_pos (Nat.le_refl 10), Bool.or_eq_true, decide_eq_true_iff, idigit_iff]
  refine or_congr ?_ (and_iff_right rfl)
  by_cases h : 48 ≤ c.toNat ∧ c.toNat < 48 + 10
  · rw [if_pos h]
    exact iff_of_true rfl (by omega)
  · rw [if_neg h]
    exact iff_of_false Bool.false_ne_true (by omega)

theorem skipDigits_append {run rest : Bytes} (hrun : ∀ c ∈ run, InRun true 10 c)
    (hrest : ∀ c, rest.head? = some c → ¬ InRun true 10 c) : skipDigits (run ++ rest) = rest := by
  unfold skipDigits
  rw [List.dropWhile_append_of_pos fun c hc => inRun_ten.mp (hrun c hc)]
  cases rest with
  | nil => rfl
  | cons c rest =>
    have hc : ¬ (idigit c || c = 95) = true := fun h => hrest c rfl (inRun_ten.mpr h)
    exact List.dropWhile_cons_of_neg hc

theorem GroupedDigits.parts {base n : Nat} {grouped : Bytes} (h : GroupedDigits base n grouped)
    (hlow : 2 ≤ base) (hhigh : base ≤ 36) (asked : Int) (front rest : Bytes)
    (hbase : BasePart asked base front (grouped ++ rest))
    (hfront : front = [] ∨ front.head? = some 48)
    (hrest : ∀ c, rest.head? = some c → ¬ InRun true base c) :
    Parts (front ++ (grouped ++ rest)) asked true false base grouped rest := by
  refine ⟨[], [], front, rfl, fun c hc => absurd hc List.not_mem_nil, Or.inr ⟨rfl, Or.inl rfl⟩,
    fun _ c hc => ?_, hbase, fun c hc => h.inRun hlow hhigh hc, hrest⟩
  rcases hfront with rfl | hfront
  · obtain ⟨d, tail, hd, -, rfl⟩ := h.cons hlow
    obtain rfl := Option.some.inj hc
    exact digitByte_plain d (by omega)
  · rw [head?_eq_some_cons hfront] at hc
    obtain rfl := Option.some.inj hc
    decide

theorem groupedDigits_decimalBytes {n : Nat} (hn : n ≠ 0) :
    GroupedDigits 10 n (decimalBytes n) := by
  have heq : decimalBytes n = (intDigits 10 n).map digitByte := by
    rw [intDigits_pos hn]
    rfl
  have hzero : ¬ (0 : Int) < 0 := by decide
  exact .of_groups (by decide) (by decide) (fun _ => heq) fun h => absurd h hzero

/-! ## `lexconstant` -/

theorem baseMark_cases {o : NumberOptions} {base : Int} (hmark : 0 < base ∨ base = -10) :
    (base = 16 ∧ baseMark o base = [48, 120]) ∨
    (base = 8 ∧ o.octalzeroes = true ∧ baseMark o base = [48]) ∨
    (base.natAbs = 10 ∧ baseMark o base = []) ∨
    baseMark o base = decimalBytes base.natAbs ++ [35] := by
  unfold baseMark
  by_cases hpos : base > 0
  · rw [if_pos hpos]
    by_cases hhex : o.cbases = true ∧ base = 16
    · rw [if_pos hhex]
      exact Or.inl ⟨hhex.2, rfl⟩
    by_cases hoct : o.cbases = true ∧ base = 8 ∧ o.octalzeroes = true
    · rw [if_neg hhex, if_pos hoct]
      exact Or.inr (Or.inl ⟨hoct.2.1, hoct.2.2, rfl⟩)
    rw [if_neg hhex, if_neg hoct]
    by_cases hten : base = 10
    · rw [if_neg (not_not_intro hten), hten]
      exact Or.inr (Or.inr (Or.inl ⟨rfl, rfl⟩))
    · rw [if_pos hten, show base.toNat = base.natAbs by omega]
      exact Or.inr (Or.inr (Or.inr rfl))
  · rw [if_neg hpos, hmark.resolve_left hpos]
    exact Or.inr (Or.inr (Or.inl ⟨rfl, rfl⟩))

theorem digitByte_ne_zero : ∀ d < 10, d ≠ 0 → digitByte d ≠ 48 := by decide

theorem idigit_digitByte : ∀ d < 10, idigit (digitByte d) = true := by decide

theorem exists_idigit_cons {o : NumberOptions} {base : Int} (hlow : 2 ≤ base.natAbs)
    (hmark : 0 < base ∨ base = -10) {n : Nat} {grouped : Bytes}
    (h : GroupedDigits base.natAbs n grouped) :
    ∃ c s, baseMark o base ++ grouped = c :: s ∧ idigit c = true := by
  rcases @baseMark_cases o base hmark with ⟨-, hfront⟩ | ⟨-, -, hfront⟩ | ⟨hten, hfront⟩ | hfront
  · rw [hfront]
    exact ⟨48, 120 :: grouped, rfl, by decide⟩
  · rw [hfront]
    exact ⟨48, grouped, rfl, by decide⟩
  · rw [hten] at h
    obtain ⟨d, rest, hd, -, hgrouped⟩ := h.cons (by decide)
    rw [hfront]
    exact ⟨digitByte d, rest, hgrouped, idigit_digitByte d hd⟩
  · obtain ⟨d, rest, hd, -, hdecimal⟩ :=
      (@groupedDigits_decimalBytes base.natAbs (by omega)).cons (by decide)
    rw [hfront, hdecimal]
    exact ⟨digitByte d, _, rfl, idigit_digitByte d hd⟩

theorem lexDecimal_of_read {m : OtherTokens} {o : NumberOptions} {st st' : MathState}
    {nptr : Bytes} {l : Int} (hpoint : ∀ c, (skipDigits nptr).head? = some c → c = 35)
    (hread : st.readInteger 10 = (l, st')) :
    lexDecimal m o st nptr =
      if st'.ptr.head? = some 35 then
        ({ st' with ptr := st'.ptr.tail, lastbase := intOf l }.readInteger (intOf l)).2.integerToken o
          ({ st' with ptr := st'.ptr.tail, lastbase := intOf l }.readInteger (intOf l)).1
      else st'.integerToken o l := by
  have hfloat : ¬ ((skipDigits nptr).head? = some 46 ∨ (skipDigits nptr).head? = some 101 ∨
      (skipDigits nptr).head? = some 69) := by
    rintro (h | h | h)
    · exact absurd (hpoint _ h) (by decide)
    · exact absurd (hpoint _ h) (by decide)
    · exact absurd (hpoint _ h) (by decide)
  unfold lexDecimal
  rw [if_neg hfloat, hread]

theorem lexconstant_of_ne {m : OtherTokens} {o : NumberOptions} {st : MathState} {c : UInt8} {s : Bytes}
    (hptr : st.ptr = c :: s) (hdash : isDash c = false) (hzero : c ≠ 48) :
    lexconstant m o st = lexDecimal m o st st.ptr := by
  have hhead : ¬ st.ptr.head?.any isDash = true := by
    rw [hptr, List.head?_cons, Option.any_some, hdash]
    exact Bool.false_ne_true
  unfold lexconstant
  rw [if_neg hhead, if_neg]
  rw [hptr, List.head?_cons]
  exact fun h => hzero (Option.some.inj h)

section Constant

variable {m : OtherTokens} {o : NumberOptions} (hforce : o.forcefloat = false) {st : MathState}
  (herr : st.errflag = false) {n : Nat} (hn : n ≤ 2 ^ 63) {grouped : Bytes}

include hforce herr hn

theorem lexDecimal_plain (h : GroupedDigits 10 n grouped) (hptr : st.ptr = grouped) {nptr : Bytes}
    (hnptr : skipDigits nptr = []) :
    ∃ l messages, lexDecimal m o st nptr =
        (.num, { st with ptr := [], messages := st.messages ++ messages, yyval := .integer l }) ∧
      ReadOutcome n l messages := by
  have hparts := h.parts (by decide) (by decide) 10 [] [] (Or.inr ⟨by decide, rfl, rfl⟩) (Or.inl rfl) nofun
  have hdigits := h.digitsOf (by decide) (by decide)
  subst hptr
  rw [List.nil_append, List.append_nil] at hparts
  obtain ⟨l, messages, hread, hout⟩ := readInteger_eq herr (Or.inr (by decide)) hparts
    (by rw [hdigits, readDigits_intDigits]; exact hn)
  rw [hdigits, readDigits_intDigits] at hout
  refine ⟨l, messages, ?_, hout⟩
  have hpoint : ∀ c, (skipDigits nptr).head? = some c → c = 35 := by
    rw [hnptr]
    exact nofun
  have hend : ¬ ([] : Bytes).head? = some 35 := nofun
  rw [lexDecimal_of_read hpoint hread, if_neg hend]
  unfold MathState.integerToken
  rw [hforce]
  rfl

theorem lexDecimal_based {base : Nat} (hlow : 2 ≤ base) (hhigh : base ≤ 36)
    (h : GroupedDigits base n grouped) (hptr : st.ptr = decimalBytes base ++ 35 :: grouped) :
    ∃ l messages, lexDecimal m o st st.ptr =
        (.num, { st with ptr := [], messages := st.messages ++ messages, lastbase := base
                         yyval := .integer l }) ∧
      ReadOutcome n l messages := by
  have hmark : GroupedDigits 10 base (decimalBytes base) := groupedDigits_decimalBytes (by omega)
  have hstop : ∀ c, (35 :: grouped).head? = some c → ¬ InRun true 10 c := by
    intro c hc
    obtain rfl := Option.some.inj hc
    decide
  have hparts := hmark.parts (by decide) (by decide) 10 [] (35 :: grouped)
    (Or.inr ⟨by decide, rfl, rfl⟩) (Or.inl rfl) hstop
  have hdigits := hmark.digitsOf (by decide) (by decide)
  have hskip := skipDigits_append (fun c hc => hmark.inRun (by decide) (by decide) hc) hstop
  rw [List.nil_append, ← hptr] at hparts
  obtain ⟨b, messages, hread, hout⟩ := readInteger_eq herr (Or.inr (by decide)) hparts
    (by rw [hdigits, readDigits_intDigits]; omega)
  rw [hdigits, readDigits_intDigits] at hout
  obtain ⟨rfl, rfl⟩ := hout.1 (by omega)
  have hint : intOf base = base := by
    unfold intOf
    omega
  have hparts := h.parts hlow hhigh base [] []
    (Or.inr ⟨by omega, rfl, rfl⟩) (Or.inl rfl) nofun
  have hdigits := h.digitsOf hlow hhigh
  rw [List.nil_append, List.append_nil] at hparts
  obtain ⟨l, messages, hnext, hout⟩ := @readInteger_eq
    { st with ptr := grouped, lastbase := base } herr base (Or.inr (by omega)) _ _ _ hparts
    (by rw [hdigits, readDigits_intDigits]; exact hn)
  rw [hdigits, readDigits_intDigits] at hout
  refine ⟨l, messages, ?_, hout⟩
  have hpoint : ∀ c, (skipDigits st.ptr).head? = some c → c = 35 := by
    intro c hc
    rw [hptr, hskip] at hc
    exact (Option.some.inj hc).symm
  rw [lexDecimal_of_read hpoint hread, if_pos (List.head?_cons), hint, List.append_nil]
  dsimp only [List.tail_cons]
  rw [hnext]
  unfold MathState.integerToken
  rw [hforce]
  rfl

theorem lexconstant_hex (h : GroupedDigits 16 n grouped) (hptr : st.ptr = 48 :: 120 :: grouped) :
    ∃ l messages, lexconstant m o st =
        (.num, { st with ptr := [], messages := st.messages ++ messages, lastbase := 16
                         yyval := .integer l }) ∧
      ReadOutcome n l messages := by
  have hparts := h.parts (by decide) (by decide) 0 [48, 120] []
    (Or.inl ⟨rfl, Or.inr (Or.inl ⟨rfl, Or.inl rfl⟩)⟩) (Or.inr rfl) nofun
  have hdigits := h.digitsOf (by decide) (by decide)
  rw [List.append_nil, List.cons_append, List.singleton_append, ← hptr] at hparts
  obtain ⟨l, messages, hread, hout⟩ := readInteger_eq herr (Or.inl rfl) hparts
    (by rw [hdigits, readDigits_intDigits]; exact hn)
  rw [hdigits, readDigits_intDigits] at hout
  refine ⟨l, messages, ?_, hout⟩
  unfold lexconstant
  rw [hread, hptr]
  simp [isDash, asciiLower, MathState.integerToken, hforce]

theorem lexconstant_octal (hoctal : o.octalzeroes = true) (h : GroupedDigits 8 n grouped)
    (hptr : st.ptr = 48 :: grouped) :
    ∃ l messages, lexconstant m o st =
        (.num, { st with ptr := [], messages := st.messages ++ messages, lastbase := 8
                         yyval := .integer l }) ∧
      ReadOutcome n l messages := by
  obtain ⟨d, rest, hd, -, hgrouped⟩ := h.cons (by decide)
  have hletter : ∀ d < 8, digitByte d ≠ 120 ∧ digitByte d ≠ 88 ∧ digitByte d ≠ 98 ∧
      digitByte d ≠ 66 := by decide
  have hhead : ∀ c, (grouped ++ []).head? = some c → c ≠ 120 ∧ c ≠ 88 ∧ c ≠ 98 ∧ c ≠ 66 := by
    intro c hc
    rw [hgrouped] at hc
    obtain rfl := Option.some.inj hc
    exact hletter d hd
  have hparts := h.parts (by decide) (by decide) 0 [48] []
    (Or.inl ⟨rfl, Or.inr (Or.inr (Or.inr ⟨rfl, rfl, hhead⟩))⟩) (Or.inr rfl) nofun
  have hdigits := h.digitsOf (by decide) (by decide)
  have hten : ∀ c ∈ grouped, InRun true 10 c := by
    intro c hc
    rcases h.mem (by decide) hc with rfl | ⟨d, hd, rfl⟩
    · exact Or.inr ⟨rfl, rfl⟩
    · have hsome := @zdigit_digitByte 10 d (by decide) (by omega)
      exact Or.inl (by rw [hsome]; rfl)
  have hskip : skipDigits (48 :: grouped).tail = [] := by
    have hrun := @skipDigits_append grouped [] hten nofun
    rwa [List.append_nil] at hrun
  rw [List.append_nil, List.singleton_append, ← hptr] at hparts
  obtain ⟨l, messages, hread, hout⟩ := readInteger_eq herr (Or.inl rfl) hparts
    (by rw [hdigits, readDigits_intDigits]; exact hn)
  rw [hdigits, readDigits_intDigits] at hout
  refine ⟨l, messages, ?_, hout⟩
  have hlower : ∀ d < 8, asciiLower (digitByte d) ≠ 120 ∧ asciiLower (digitByte d) ≠ 98 := by decide
  have hhex : ¬ (asciiLower ((48 :: grouped).tail.headD 0) = 120 ∨
      asciiLower ((48 :: grouped).tail.headD 0) = 98) := by
    rw [hgrouped, not_or]
    exact hlower d hd
  have hlong : ([] : Bytes).length < (48 :: grouped).tail.length := by
    rw [hgrouped]
    exact Nat.succ_pos _
  unfold lexconstant
  have hdash : ¬ (48 :: grouped).head?.any isDash = true := by
    rw [List.head?_cons, Option.any_some]
    decide
  rw [hread, hptr, if_neg hdash, if_pos (List.head?_cons), if_neg hhex, if_pos hoctal, hskip, if_pos ⟨hlong, nofun, nofun, nofun, nofun⟩]
  unfold MathState.integerToken
  rw [hforce]
  rfl

theorem lexconstant_eq {base : Int} (hlow : 2 ≤ base.natAbs) (hhigh : base.natAbs ≤ 36)
    (hmark : 0 < base ∨ base = -10) (h : GroupedDigits base.natAbs n grouped)
    (hptr : st.ptr = baseMark o base ++ grouped) :
    ∃ l messages lastbase, lexconstant m o st =
        (.num, { st with ptr := [], messages := st.messages ++ messages, lastbase := lastbase
                         yyval := .integer l }) ∧
      ReadOutcome n l messages := by
  rcases baseMark_cases hmark with ⟨rfl, hfront⟩ | ⟨rfl, ho, hfront⟩ | ⟨hten, hfront⟩ | hfront
  · rw [hfront] at hptr
    obtain ⟨l, messages, heq, hout⟩ := lexconstant_hex hforce herr hn h hptr
    exact ⟨l, messages, 16, heq, hout⟩
  · rw [hfront] at hptr
    obtain ⟨l, messages, heq, hout⟩ := lexconstant_octal hforce herr hn ho h hptr
    exact ⟨l, messages, 8, heq, hout⟩
  · rw [hfront, List.nil_append] at hptr
    rw [hten] at h
    suffices hlex : ∃ nptr, skipDigits nptr = [] ∧ lexconstant m o st = lexDecimal m o st nptr by
      obtain ⟨nptr, hskip, hlex⟩ := hlex
      obtain ⟨l, messages, heq, hout⟩ := lexDecimal_plain hforce herr hn h hptr hskip
      exact ⟨l, messages, st.lastbase, hlex.trans heq, hout⟩
    by_cases hzero : n = 0
    · refine ⟨[], rfl, ?_⟩
      rw [h.zero hzero] at hptr
      unfold lexconstant
      rw [hptr]
      cases o.octalzeroes <;> rfl
    · obtain ⟨d, rest, hd, hne, hgrouped⟩ := h.cons (by decide)
      have hskip := @skipDigits_append grouped [] (fun c hc => h.inRun (by decide) (by decide) hc)
        nofun
      rw [List.append_nil, ← hptr] at hskip
      exact ⟨st.ptr, hskip, lexconstant_of_ne (hptr.trans hgrouped) (digitByte_plain d (by omega)).2.1
        (digitByte_ne_zero d hd (hne hzero))⟩
  · rw [hfront, List.append_assoc, List.singleton_append] at hptr
    obtain ⟨d, rest, hd, hne, hdecimal⟩ :=
      (@groupedDigits_decimalBytes base.natAbs (by omega)).cons (by decide)
    have hcons : st.ptr = digitByte d :: (rest ++ 35 :: grouped) := by
      rw [hptr, hdecimal]
      rfl
    obtain ⟨l, messages, heq, hout⟩ := lexDecimal_based hforce herr hn hlow hhigh h hptr
    refine ⟨l, messages, base.natAbs, ?_, hout⟩
    rw [lexconstant_of_ne hcons (digitByte_plain d (by omega)).2.1
      (digitByte_ne_zero d hd (hne (by omega)))]
    exact heq

end Constant

/-! ## `matheval` -/

section Eval

variable {m : OtherTokens} {o : NumberOptions} {st : MathState} {c : UInt8} {s : Bytes}

theorem zzlex_digit (hptr : st.ptr = c :: s) (hc : idigit c = true) :
    zzlex m o st = lexconstant m o st := by
  have hblank : ∀ c, idigit c = true →
      ¬ (c = 32 || c = 9 || c = 10 || c = 34 || c = 0x9e) = true := by
    intro c hc hblank
    simp only [Bool.or_eq_true, decide_eq_true_iff] at hblank
    rcases hblank with (((rfl | rfl) | rfl) | rfl) | rfl
    all_goals exact absurd hc (by decide)
  have hdash : ¬ isDash c = true := Bool.eq_false_iff.mp (idigit_plain hc).2.1
  have hstay : st.ptr.dropWhile (fun c => c = 32 || c = 9 || c = 10 || c = 34 || c = 0x9e) =
      c :: s := by
    rw [hptr]
    exact List.dropWhile_cons_of_neg (hblank c hc)
  have hsame : { st with ptr := c :: s } = st := by rw [← hptr]
  unfold zzlex
  rw [hstay]
  dsimp only
  rw [if_neg hdash, hc, Bool.true_or, if_pos rfl, hsame]

theorem zzlex_minus (hptr : st.ptr = 45 :: c :: s) (hunary : st.unary = true)
    (hc : idigit c = true) {st' : MathState}
    (hnum : lexconstant m o { st with ptr := c :: s } = (.num, st')) :
    zzlex m o st = (.num, { st' with yyval := st'.yyval.neg }) := by
  have hdash : ¬ (c :: s).head?.any isDash = true := by
    rw [List.head?_cons, Option.any_some]
    exact Bool.eq_false_iff.mp (idigit_plain hc).2.1
  have hequals : ¬ (c :: s).head? = some 61 := by
    intro h
    rw [Option.some.inj h] at hc
    exact absurd hc (by decide)
  have hdigit : (c :: s).head?.any (fun c => idigit c || c = 46) = true := by
    rw [List.head?_cons, Option.any_some, hc, Bool.true_or]
  have hstay : st.ptr.dropWhile (fun c => c = 32 || c = 9 || c = 10 || c = 34 || c = 0x9e) =
      45 :: c :: s := by
    rw [hptr]
    exact List.dropWhile_cons_of_neg (by decide)
  unfold zzlex
  rw [hstay]
  dsimp only
  rw [if_pos (by decide : isDash 45 = true), if_neg hdash, if_neg hequals, if_pos hunary,
    if_pos hdigit, hnum]
  rfl

theorem zzlex_nil (hptr : st.ptr = []) : zzlex m o st = (.eoi, st) := by
  have hsame : { st with ptr := [] } = st := by rw [← hptr]
  unfold zzlex
  rw [hptr, List.dropWhile_nil]
  dsimp only
  rw [hsame]

theorem lexToken_eq {tok : MathToken} {st' : MathState} (hlex : zzlex m o st = (tok, st')) :
    lexToken m o st = { st' with mtok := tok } := by
  unfold lexToken
  rw [hlex]

theorem checkunary_eq {mptr : Bytes} (h : st.mtok.operator m ≠ st.unary) :
    checkunary m mptr st = { st with unary := !st.mtok.opf m } := by
  unfold checkunary
  rw [if_neg h]

theorem mathLoop_number (hptr : st.ptr = []) (htok : st.mtok = .num) (hunary : st.unary = false)
    (herr : st.errflag = false) (hstack : st.stack = []) (rounds : Nat) :
    mathLoop m o (TOPPREC o) (rounds + 2) st =
      some { st with stack := [st.yyval], mtok := .eoi, unary := true } := by
  have hnum : ¬ TOPPREC o < st.mtok.prec m o := by
    rw [htok]
    exact Nat.not_lt_zero _
  have heoi : TOPPREC o < MathToken.prec m o .eoi := by
    show _ < 200
    unfold TOPPREC
    split <;> omega
  have hpush : st.push = { st with stack := [st.yyval] } := by
    unfold MathState.push
    rw [hstack, if_neg (by decide)]
  have hnext : checkunary m st.push.ptr (lexToken m o st.push) =
      { st with stack := [st.yyval], mtok := .eoi, unary := true } := by
    have hend : MathToken.operator m .eoi ≠ st.unary := by
      rw [hunary]
      exact nofun
    rw [hpush, lexToken_eq (@zzlex_nil m o { st with stack := [st.yyval] } hptr), checkunary_eq hend]
    rfl
  have hgoes : ¬ st.errflag = true := by
    rw [herr]
    exact Bool.false_ne_true
  unfold mathLoop
  rw [if_neg hnum, if_neg hgoes, if_pos htok, hnext]
  unfold mathLoop
  rw [if_pos heoi]

theorem matheval_number (hs : s.head? ≠ some 0xa1) (hne : s ≠ []) {messages : List MathMessage}
    {lastbase : Int} {number : Mnumber}
    (hlex : zzlex m o (mathStart s) = (.num, { mathStart s with
      ptr := [], messages := messages, lastbase := lastbase, yyval := number })) (rounds : Nat) :
    matheval m o (rounds + 2) s = some { value := number, messages := messages } := by
  have htok : ¬ (TOPPREC o = TOPPREC o ∧ MathToken.num = .eoi) := fun h => absurd h.2 nofun
  have hfirst : MathToken.operator m .num ≠ true := Bool.false_ne_true
  have hparse : mathparse m o (rounds + 2) (TOPPREC o) (mathStart s) =
      some { mathStart s with ptr := [], messages := messages, lastbase := lastbase
                              yyval := number, stack := [number], mtok := .eoi } := by
    have herr : ¬ (mathStart s).errflag = true := Bool.false_ne_true
    unfold mathparse
    rw [if_neg herr, lexToken_eq hlex, if_neg htok, checkunary_eq hfirst,
      mathLoop_number rfl rfl rfl rfl rfl]
    rfl
  unfold matheval
  rw [if_neg hs]
  dsimp only
  rw [if_neg hne, hparse]
  rfl

end Eval

/-- What is asked of the printed text: digits with their groups, and the number when it is
evaluated. -/
structure PrintsAndReads (o : NumberOptions) (v base underscore : Int) : Prop where
  grouped : ∃ digits grouped,
    convbaseUnderscore o v base underscore = signText v ++ (baseMark o base ++ grouped) ∧
    (∀ d ∈ digits, d < base.natAbs) ∧ readDigits base.natAbs digits = v.natAbs ∧
    (digits.head? = some 0 → digits = [0]) ∧
    (underscore ≤ 0 → grouped = digits.map digitByte) ∧
    (0 < underscore → FromRight 95 underscore.toNat (digits.map digitByte) grouped)
  readBack : 0 < base ∨ base = -10 → ∀ m rounds,
    matheval m o (rounds + 2) (convbaseUnderscore o v base underscore) =
      some { value := .integer v, messages := [] }

section Printed

variable {o : NumberOptions} {v base underscore : Int} (hv : -2 ^ 63 ≤ v ∧ v < 2 ^ 63)
  (hlow : 2 ≤ base.natAbs) (hhigh : base.natAbs ≤ 36)

include hv hlow hhigh

theorem matheval_convbaseUnderscore (hforce : o.forcefloat = false)
    (hmark : 0 < base ∨ base = -10) (m : OtherTokens) (rounds : Nat) :
    ∃ l messages, matheval m o (rounds + 2) (convbaseUnderscore o v base underscore) =
        some { value := .integer (if v < 0 then zlong (-l) else l), messages := messages } ∧
      ReadOutcome v.natAbs l messages := by
  obtain ⟨grouped, htext, hnone, hgroups⟩ := @convbaseUnderscore_eq o v base underscore hv hlow
  have h := GroupedDigits.of_groups hlow hhigh hnone hgroups
  rw [htext]
  obtain ⟨c, s, hcons, hc⟩ := @exists_idigit_cons o base hlow hmark _ _ h
  rw [hcons]
  by_cases hneg : v < 0
  · have hsign : signText v = [45] := if_pos hneg
    obtain ⟨l, messages, lastbase, hlex, hout⟩ := @lexconstant_eq m o hforce
      { mathStart (45 :: c :: s) with ptr := c :: s } rfl v.natAbs (by omega) grouped base hlow
      hhigh hmark h hcons.symm
    have hminus := @zzlex_minus m o (mathStart (45 :: c :: s)) c s rfl rfl hc _ hlex
    refine ⟨l, messages, ?_, hout⟩
    rw [hsign, if_pos hneg]
    have hnularg : (45 :: c :: s).head? ≠ some 0xa1 := fun h => absurd (Option.some.inj h) (by decide)
    exact matheval_number hnularg (List.cons_ne_nil _ _) hminus rounds
  · have hsign : signText v = [] := if_neg hneg
    obtain ⟨l, messages, lastbase, hlex, hout⟩ := @lexconstant_eq m o hforce
      (mathStart (c :: s)) rfl v.natAbs (by omega) grouped base hlow hhigh hmark h hcons.symm
    have hplain := (@zzlex_digit m o (mathStart (c :: s)) c s rfl hc).trans hlex
    refine ⟨l, messages, ?_, hout⟩
    rw [hsign, if_neg hneg]
    have hnularg : (c :: s).head? ≠ some 0xa1 := by
      intro h
      rw [Option.some.inj h] at hc
      exact absurd hc (by decide)
    exact matheval_number hnularg (List.cons_ne_nil _ _) hplain rounds

theorem printsAndReads_iff (hforce : o.forcefloat = false) :
    PrintsAndReads o v base underscore ↔ v ≠ -2 ^ 63 ∨ ¬ (0 < base ∨ base = -10) := by
  constructor
  · intro h
    by_contra hbad
    obtain ⟨hmin, hmark⟩ := not_or.mp hbad
    have hmin := not_not.mp hmin
    have hmark := not_not.mp hmark
    obtain ⟨l, messages, heq, hout⟩ :=
      @matheval_convbaseUnderscore o v base underscore hv hlow hhigh hforce hmark noTokens 0
    rw [h.readBack hmark noTokens 0] at heq
    obtain ⟨-, hmessages⟩ := MathAnswer.mk.inj (Option.some.inj heq)
    exact hout.2 (by omega) hmessages.symm
  · intro hgood
    obtain ⟨grouped, htext, hnone, hgroups⟩ := @convbaseUnderscore_eq o v base underscore hv hlow
    refine ⟨⟨intDigits base.natAbs v.natAbs, grouped, htext, fun d hd => intDigits_lt hlow hd,
      readDigits_intDigits _ _, fun hhead => ?_, hnone, hgroups⟩, fun hmark m rounds => ?_⟩
    · by_cases hzero : v.natAbs = 0
      · exact if_pos hzero
      · rw [intDigits_pos hzero] at hhead
        exact absurd hhead head?_printDigits
    · obtain ⟨l, messages, heq, hout⟩ :=
        @matheval_convbaseUnderscore o v base underscore hv hlow hhigh hforce hmark m rounds
      have hmin : v ≠ -2 ^ 63 := hgood.resolve_right (not_not_intro hmark)
      obtain ⟨rfl, rfl⟩ := hout.1 (by omega)
      have hvalue : (if v < 0 then zlong (-(v.natAbs : Int)) else (v.natAbs : Int)) = v := by
        unfold zlong
        split <;> omega
      rw [heq, hvalue]

end Printed

/-- In base 8, with a zero in front and groups of three. -/
theorem printsAndReads_octal :
    PrintsAndReads { cbases := true, octalzeroes := true, forcefloat := false, cprecedences := false }
      (-4711) 8 3 :=
  (printsAndReads_iff (by decide) (by decide) (by decide) rfl).mpr (Or.inl (by decide))

/-- The lowest number in base 10: it is cut with a warning when it is read. -/
theorem not_printsAndReads_lowest :
    ¬ PrintsAndReads
      { cbases := false, octalzeroes := false, forcefloat := false, cprecedences := false }
      (-2 ^ 63) 10 0 := by
  intro h
  have hread := h.readBack (Or.inl (by decide)) noTokens 0
  revert hread
  decide +kernel

end NextBSD.Zsh
