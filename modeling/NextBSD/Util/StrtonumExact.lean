import NextBSD.Util.Strtonum

/-!
# What `sudo_strtonum` tells of a string

A range that leaves out zero is where it goes wrong: the test against the near bound comes last,
and takes a number that was cut short, or the zero of no digits, for the number of the string.
-/

namespace NextBSD.Util

open Digits
open Iolog (Bytes StrtonumErr signed digitText)

/-- What the answer tells of a string that denotes what `denotes` says. -/
structure Tells (answer : Answer) (denotes : Int → Prop) (minval maxval : Int) : Prop where
  success : ∀ v, (answer.errstr = none ∧ answer.value = v) ↔
    denotes v ∧ minval ≤ v ∧ v ≤ maxval
  failure : answer.errstr ≠ none → answer.value = 0
  tooLarge : answer.errstr = some "value too large" ↔ ∃ v, denotes v ∧ maxval < v
  tooSmall : answer.errstr = some "value too small" ↔ ∃ v, denotes v ∧ v < minval
  invalid : answer.errstr = some "invalid value" ↔ ¬ ∃ v, denotes v

/-- `sudo_strtonum` never overflows and tells of the whole string what it denotes. -/
def Exact (str : Bytes) (minval maxval : Int) : Prop :=
  ∃ answer, sudoStrtonum str minval maxval = some answer ∧
    Tells answer (fun v => Denotes str v []) minval maxval

/-- The same for `sudo_strtonumx`, which reads up to a separator, reports where it is, and answers
the start of the string where there is no number. -/
structure TellsUpTo (str : Bytes) (answer : Answer) (minval maxval : Int) : Prop where
  success : ∀ v rest,
    (answer.errstr = none ∧ answer.endp ≠ str ∧ answer.value = v ∧ answer.endp = rest) ↔
      Denotes str v rest ∧ minval ≤ v ∧ v ≤ maxval
  failure : answer.errstr ≠ none → answer.value = 0
  tooLarge : answer.errstr = some "value too large" ↔ ∃ v rest, Denotes str v rest ∧ maxval < v
  tooSmall : answer.errstr = some "value too small" ↔ ∃ v rest, Denotes str v rest ∧ v < minval
  noNumber : (answer.errstr = none ∧ answer.endp = str ∧ answer.value = 0) ↔
    ¬ ∃ v rest, Denotes str v rest

def ExactUpTo (str : Bytes) (minval maxval : Int) : Prop :=
  ∃ answer, sudoStrtonumx str minval maxval = some answer ∧ TellsUpTo str answer minval maxval

/-! ## When the caller is told something else -/

/-- Zero lies on the near side of the range, seen from the numbers with that sign. -/
def Outside (negative : Bool) (minval maxval : Int) : Prop :=
  if negative then maxval < 0 else 0 < minval

/-- The string up to `rest` has no digits, and the range does not begin at zero or before. -/
def Blank (str rest : Bytes) (minval maxval : Int) : Prop :=
  ∃ negative, Parts str negative [] rest ∧ Outside negative minval maxval

/-- The number lies beyond the range, and the numbers of the prefixes of its digits jump over
the range. -/
def JumpsOver (negative : Bool) (digits : List Nat) (minval maxval : Int) : Prop :=
  Outside negative minval maxval ∧
  (if negative then denoted negative digits < minval else maxval < denoted negative digits) ∧
  ∀ front, front <+: digits →
    ¬ (minval ≤ denoted negative front ∧ denoted negative front ≤ maxval)

def Jumps (str rest : Bytes) (minval maxval : Int) : Prop :=
  ∃ negative digits, Parts str negative digits rest ∧ digits ≠ [] ∧
    JumpsOver negative digits minval maxval

def verdict (v minval maxval : Int) : StrtonumErr :=
  if maxval < v then .tooBig else if v < minval then .tooSmall else .valid

theorem denotes_iff {str rest rest' : Bytes} {negative : Bool} {digits : List Nat} {v : Int}
    (h : Parts str negative digits rest) :
    Denotes str v rest' ↔ rest' = rest ∧ digits ≠ [] ∧ v = denoted negative digits := by
  constructor
  · rintro ⟨negative', digits', h', hne, rfl⟩
    have hsame := (parts_eq_iff.mpr h').symm.trans (parts_eq_iff.mpr h)
    obtain ⟨rfl, rfl, rfl⟩ : negative' = negative ∧ digits' = digits ∧ rest' = rest :=
      ⟨congrArg (·.1) hsame, congrArg (·.2.1) hsame, congrArg (·.2.2) hsame⟩
    exact ⟨rfl, hne, rfl⟩
  · rintro ⟨rfl, hne, rfl⟩
    exact ⟨negative, digits, h, hne, rfl⟩

/-! The range on the side of the sign. -/

theorem outside_iff {negative : Bool} {minval maxval : Int} :
    Outside negative minval maxval ↔ 0 < lowest negative minval maxval := by
  unfold Outside lowest
  cases negative <;> simp only [Bool.false_eq_true, if_false, if_true]
  omega

theorem beyond_iff {negative : Bool} {n : Nat} {minval maxval : Int} :
    (if negative then signed negative n < minval else maxval < signed negative n) ↔
      highest negative minval maxval < n := by
  unfold highest signed
  cases negative <;> simp only [Bool.false_eq_true, if_false, if_true]
  omega

theorem within_iff {negative : Bool} {n : Nat} {minval maxval : Int} :
    (minval ≤ signed negative n ∧ signed negative n ≤ maxval) ↔
      lowest negative minval maxval ≤ n ∧ n ≤ highest negative minval maxval := by
  unfold lowest highest signed
  cases negative <;> simp only [Bool.false_eq_true, if_false, if_true]
  omega

theorem verdict_near {negative : Bool} {n : Nat} {minval maxval : Int} (hrange : minval ≤ maxval)
    (h : (n : Int) < lowest negative minval maxval) :
    verdict (signed negative n) minval maxval = nearError negative := by
  unfold lowest at h
  unfold verdict signed nearError
  cases negative with
  | false =>
    simp only [Bool.false_eq_true, if_false] at h ⊢
    rw [if_neg (by omega), if_pos h]
  | true =>
    simp only [if_true] at h ⊢
    rw [if_pos (by omega)]

theorem verdict_far {negative : Bool} {n : Nat} {minval maxval : Int} (hrange : minval ≤ maxval)
    (h : highest negative minval maxval < n) :
    verdict (signed negative n) minval maxval = if negative then .tooSmall else .tooBig := by
  unfold highest at h
  unfold verdict signed
  cases negative with
  | false =>
    simp only [Bool.false_eq_true, if_false] at h ⊢
    rw [if_pos h]
  | true =>
    simp only [if_true] at h ⊢
    rw [if_neg (by omega), if_pos (by omega)]

theorem verdict_within {v minval maxval : Int} (h : minval ≤ v ∧ v ≤ maxval) :
    verdict v minval maxval = .valid := by
  unfold verdict
  rw [if_neg (Int.not_lt.mpr h.2), if_neg (Int.not_lt.mpr h.1)]

theorem scan_nil {str rest : Bytes} {negative : Bool} {minval maxval : Int}
    (hmin : -2 ^ 63 ≤ minval) (hmax : maxval < 2 ^ 63) (hrange : minval ≤ maxval)
    (h : Parts str negative [] rest) :
    ∃ errval, scan str minval maxval = some (0, errval, rest) ∧
      (Outside negative minval maxval → errval = nearError negative) ∧
      (¬ Outside negative minval maxval → errval = .initial) := by
  have hscan := scan_eq hmin hmax hrange h
  have hzero : signed negative 0 = 0 := by cases negative <;> rfl
  change scan str minval maxval = some (signed negative 0,
    if (0 : Int) < lowest negative minval maxval then nearError negative else .initial, rest)
    at hscan
  rw [hzero] at hscan
  exact ⟨_, hscan, fun hout => if_pos (outside_iff.mp hout),
    fun hout => if_neg fun hlow => hout (outside_iff.mpr hlow)⟩

theorem scan_digits {str rest : Bytes} {negative : Bool} {digits : List Nat} {minval maxval : Int}
    (hmin : -2 ^ 63 ≤ minval) (hmax : maxval < 2 ^ 63) (hrange : minval ≤ maxval)
    (h : Parts str negative digits rest) (hne : digits ≠ []) :
    ∃ result errval, scan str minval maxval = some (result, errval, rest) ∧
      (JumpsOver negative digits minval maxval → errval = nearError negative) ∧
      (¬ JumpsOver negative digits minval maxval →
        errval = verdict (denoted negative digits) minval maxval) ∧
      (errval = .valid → result = denoted negative digits) := by
  have hscan := scan_eq hmin hmax hrange h
  have hjumps : JumpsOver negative digits minval maxval ↔
      0 < lowest negative minval maxval ∧ highest negative minval maxval < readDigits 10 digits ∧
      ∀ front, front <+: digits → ¬ (lowest negative minval maxval ≤ readDigits 10 front ∧
        readDigits 10 front ≤ highest negative minval maxval) := by
    unfold JumpsOver denoted
    rw [outside_iff, beyond_iff]
    simp only [within_iff]
  refine ⟨_, _, hscan, ?_⟩
  rw [hjumps]
  clear hscan
  cases hall : (readWithin 10 (highest negative minval maxval) 0 digits).2 with
  | true =>
    -- everything was read, and the number is at most on the near side
    obtain ⟨hvalue, hend⟩ := readWithin_eq_true hall
    have hle : (readDigits 10 digits : Int) ≤ highest negative minval maxval :=
      hend.resolve_left hne
    change (readWithin 10 (highest negative minval maxval) 0 digits).1 = readDigits 10 digits
      at hvalue
    rw [hvalue]
    refine ⟨fun hjump => absurd hjump.2.1 (Int.not_lt.mpr hle), fun _ => ?_, fun _ => rfl⟩
    by_cases hlow : (readDigits 10 digits : Int) < lowest negative minval maxval
    · rw [if_pos hlow]
      exact (verdict_near hrange hlow).symm
    · rw [if_neg hlow]
      unfold loopError
      rw [if_pos rfl, if_neg hne]
      exact (verdict_within (within_iff.mpr ⟨Int.not_lt.mp hlow, hle⟩)).symm
  | false =>
    obtain ⟨hbeyond, ⟨front, hfront, hvalue, hwithin⟩, hsides⟩ :=
      readWithin_eq_false (by decide) hall
    have hloop : loopError negative digits false .initial =
        verdict (denoted negative digits) minval maxval := (verdict_far hrange hbeyond).symm
    have hfar : ¬ loopError negative digits false .initial = .valid := by
      cases negative <;> exact fun h => StrtonumErr.noConfusion h
    have hnear : ¬ nearError negative = .valid := by
      cases negative <;> exact fun h => StrtonumErr.noConfusion h
    by_cases hlow : ((readWithin 10 (highest negative minval maxval) 0 digits).1 : Int) <
        lowest negative minval maxval
    · rw [if_pos hlow]
      refine ⟨fun _ => rfl, fun hno => absurd ⟨by omega, hbeyond, fun front' hfront' hin => ?_⟩ hno,
        fun hvalid => absurd hvalid hnear⟩
      rcases hsides front' hfront' with hside | hside
      · change readDigits 10 front' ≤ _ at hside
        omega
      · change highest negative minval maxval < readDigits 10 front' at hside
        omega
    · rw [if_neg hlow]
      refine ⟨fun hjump => ?_, fun _ => hloop, fun hvalid => absurd hvalid hfar⟩
      have hin : readDigits 10 front = (readWithin 10 (highest negative minval maxval) 0 digits).1 :=
        hvalue.symm
      have hzero : front = [] → readDigits 10 front = 0 := fun h => by rw [h]; rfl
      refine absurd ⟨?_, ?_⟩ (hjump.2.2 front hfront)
      · omega
      · rcases hwithin with hnil | hwithin
        · have hz := hzero hnil
          omega
        · exact hwithin

/-! ## The answer -/

def message : StrtonumErr → Option String
  | .initial | .valid => none
  | .invalid => some "invalid value"
  | .tooSmall => some "value too small"
  | .tooBig => some "value too large"

theorem report_errstr (str : Bytes) (result : Int) (errval : StrtonumErr) (rest : Bytes) :
    (report str (result, errval, rest)).errstr = message errval := by
  cases errval <;> rfl

theorem message_verdict (v minval maxval : Int) (hrange : minval ≤ maxval) :
    (message (verdict v minval maxval) = none ↔ minval ≤ v ∧ v ≤ maxval) ∧
    (message (verdict v minval maxval) = some "value too large" ↔ maxval < v) ∧
    (message (verdict v minval maxval) = some "value too small" ↔ v < minval) ∧
    message (verdict v minval maxval) ≠ some "invalid value" := by
  unfold verdict
  by_cases hbig : maxval < v
  · rw [if_pos hbig]
    refine ⟨iff_of_false (by decide) (by omega), iff_of_true rfl hbig,
      iff_of_false (by decide) (by omega), by decide⟩
  · rw [if_neg hbig]
    by_cases hsmall : v < minval
    · rw [if_pos hsmall]
      exact ⟨iff_of_false (by decide) (by omega), iff_of_false (by decide) hbig,
        iff_of_true rfl hsmall, by decide⟩
    · rw [if_neg hsmall]
      exact ⟨iff_of_true rfl (by omega), iff_of_false (by decide) hbig,
        iff_of_false (by decide) hsmall, by decide⟩

theorem message_nearError_ne {negative : Bool} {digits : List Nat} {minval maxval : Int}
    (hrange : minval ≤ maxval) (h : JumpsOver negative digits minval maxval) :
    message (nearError negative) ≠ message (verdict (denoted negative digits) minval maxval) := by
  have hfar : verdict (denoted negative digits) minval maxval =
      if negative then .tooSmall else .tooBig := verdict_far hrange (beyond_iff.mp h.2.1)
  rw [hfar]
  cases negative <;> decide

theorem message_nearError (negative : Bool) :
    message (nearError negative) = some "value too large" ∨
      message (nearError negative) = some "value too small" := by
  cases negative
  · exact Or.inr rfl
  · exact Or.inl rfl

theorem tells_of_number {answer : Answer} {denotes : Int → Prop} {v minval maxval : Int}
    (hrange : minval ≤ maxval) (hdenotes : ∀ w, denotes w ↔ w = v)
    (herrstr : answer.errstr = message (verdict v minval maxval))
    (hvalue : answer.errstr = none → answer.value = v)
    (hzero : answer.errstr ≠ none → answer.value = 0) : Tells answer denotes minval maxval := by
  obtain ⟨hnone, hlarge, hsmall, hinvalid⟩ := message_verdict v minval maxval hrange
  rw [← herrstr] at hnone hlarge hsmall hinvalid
  refine ⟨fun w => ⟨?_, ?_⟩, hzero, ?_, ?_, ?_⟩
  · rintro ⟨hno, rfl⟩
    have hv := hvalue hno
    rw [hv]
    exact ⟨(hdenotes v).mpr rfl, hnone.mp hno⟩
  · rintro ⟨hw, hin⟩
    obtain rfl := (hdenotes w).mp hw
    have hno := hnone.mpr hin
    exact ⟨hno, hvalue hno⟩
  · rw [hlarge]
    exact ⟨fun h => ⟨v, (hdenotes v).mpr rfl, h⟩, fun ⟨w, hw, h⟩ => (hdenotes w).mp hw ▸ h⟩
  · rw [hsmall]
    exact ⟨fun h => ⟨v, (hdenotes v).mpr rfl, h⟩, fun ⟨w, hw, h⟩ => (hdenotes w).mp hw ▸ h⟩
  · exact iff_of_false hinvalid fun h => h ⟨v, (hdenotes v).mpr rfl⟩

theorem Tells.errstr_eq {answer : Answer} {denotes : Int → Prop} {v minval maxval : Int}
    (h : Tells answer denotes minval maxval) (hv : denotes v) :
    answer.errstr = message (verdict v minval maxval) := by
  unfold verdict
  by_cases hbig : maxval < v
  · rw [if_pos hbig]
    exact h.tooLarge.mpr ⟨v, hv, hbig⟩
  · rw [if_neg hbig]
    by_cases hsmall : v < minval
    · rw [if_pos hsmall]
      exact h.tooSmall.mpr ⟨v, hv, hsmall⟩
    · rw [if_neg hsmall]
      exact ((h.success v).mpr ⟨hv, Int.not_lt.mp hsmall, Int.not_lt.mp hbig⟩).1

theorem tells_of_invalid {answer : Answer} {denotes : Int → Prop} {minval maxval : Int}
    (hdenotes : ∀ w, ¬ denotes w) (herrstr : answer.errstr = some "invalid value")
    (hzero : answer.value = 0) : Tells answer denotes minval maxval := by
  refine ⟨fun v => iff_of_false ?_ fun h => hdenotes v h.1, fun _ => hzero,
    iff_of_false ?_ fun ⟨v, hv, _⟩ => hdenotes v hv,
    iff_of_false ?_ fun ⟨v, hv, _⟩ => hdenotes v hv, iff_of_true herrstr fun ⟨v, hv⟩ => hdenotes v hv⟩
  · rw [herrstr]
    exact fun h => absurd h.1 (by decide)
  · rw [herrstr]
    decide
  · rw [herrstr]
    decide

theorem Parts.ne_rest {str rest : Bytes} {negative : Bool} {digits : List Nat}
    (h : Parts str negative digits rest) (hne : digits ≠ []) : str ≠ rest := by
  obtain ⟨blanks, sign, rfl, -⟩ := h
  intro heq
  have hlength := congrArg List.length heq
  have hpos := List.length_pos_of_ne_nil hne
  unfold digitText at hlength
  simp only [List.length_append, List.length_map] at hlength
  omega

theorem blank_iff {str rest rest' : Bytes} {negative : Bool} {digits : List Nat}
    {minval maxval : Int} (h : Parts str negative digits rest) :
    Blank str rest' minval maxval ↔
      digits = [] ∧ rest' = rest ∧ Outside negative minval maxval := by
  constructor
  · rintro ⟨negative', h', hout⟩
    obtain ⟨rfl, rfl, rfl⟩ := h.unique h'
    exact ⟨rfl, rfl, hout⟩
  · rintro ⟨rfl, rfl, hout⟩
    exact ⟨negative, h, hout⟩

theorem jumps_iff {str rest rest' : Bytes} {negative : Bool} {digits : List Nat}
    {minval maxval : Int} (h : Parts str negative digits rest) :
    Jumps str rest' minval maxval ↔
      digits ≠ [] ∧ rest' = rest ∧ JumpsOver negative digits minval maxval := by
  constructor
  · rintro ⟨negative', digits', h', hne, hjumps⟩
    obtain ⟨rfl, rfl, rfl⟩ := h.unique h'
    exact ⟨hne, rfl, hjumps⟩
  · rintro ⟨hne, rfl, hjumps⟩
    exact ⟨negative, digits, h, hne, hjumps⟩

theorem report_endp {str rest : Bytes} {result : Int} {errval : StrtonumErr}
    (hinitial : errval ≠ .initial) (hinvalid : errval ≠ .invalid) :
    (report str (result, errval, rest)).endp = rest := by
  cases errval with
  | initial => exact absurd rfl hinitial
  | invalid => exact absurd rfl hinvalid
  | valid | tooSmall | tooBig => rfl

theorem report_value {str rest : Bytes} {result : Int} {errval : StrtonumErr} :
    ((report str (result, errval, rest)).errstr = none →
      (report str (result, errval, rest)).value = result) ∧
    ((report str (result, errval, rest)).errstr ≠ none →
      (report str (result, errval, rest)).value = 0) := by
  cases errval with
  | initial | valid => exact ⟨fun _ => rfl, fun h => absurd rfl h⟩
  | invalid | tooSmall | tooBig => exact ⟨fun h => absurd h (Option.some_ne_none _), fun _ => rfl⟩

theorem exact_of_refused {str : Bytes} {found : Int × StrtonumErr × Bytes} {minval maxval : Int}
    (hscan : scan str minval maxval = some found)
    (hrefused : str = (report str found).endp ∨ (report str found).endp ≠ [])
    (hdenotes : ∀ v, ¬ Denotes str v []) : Exact str minval maxval := by
  have htells : Tells { report str found with
      value := 0, errstr := some "invalid value", errno := some .einval }
      (fun v => Denotes str v []) minval maxval := tells_of_invalid hdenotes rfl rfl
  refine ⟨_, ?_, htells⟩
  unfold sudoStrtonum sudoStrtonumx
  rw [hscan, Option.map_some, Option.map_some, if_pos hrefused]

theorem exact_iff_tells {str : Bytes} {found : Int × StrtonumErr × Bytes} {minval maxval : Int}
    (hscan : scan str minval maxval = some found)
    (hrefused : ¬ (str = (report str found).endp ∨ (report str found).endp ≠ [])) :
    Exact str minval maxval ↔
      Tells (report str found) (fun v => Denotes str v []) minval maxval := by
  have hanswer : sudoStrtonum str minval maxval = some (report str found) := by
    unfold sudoStrtonum sudoStrtonumx
    rw [hscan, Option.map_some, Option.map_some, if_neg hrefused]
  constructor
  · rintro ⟨answer, hsome, htells⟩
    obtain rfl := Option.some.inj (hanswer.symm.trans hsome)
    exact htells
  · exact fun htells => ⟨_, hanswer, htells⟩

theorem exact_iff_blank {str rest : Bytes} {negative : Bool} {minval maxval : Int}
    (hmin : -2 ^ 63 ≤ minval) (hmax : maxval < 2 ^ 63) (hrange : minval ≤ maxval)
    (h : Parts str negative [] rest) :
    Exact str minval maxval ↔ ¬ (str ≠ [] ∧ rest = [] ∧ Outside negative minval maxval) := by
  have hdenotes : ∀ v, ¬ Denotes str v [] := fun v hv => ((denotes_iff h).mp hv).2.1 rfl
  obtain ⟨errval, hscan, hout, hin⟩ := scan_nil hmin hmax hrange h
  by_cases hside : Outside negative minval maxval
  · obtain rfl := hout hside
    have hendp : (report str (0, nearError negative, rest)).endp = rest := by
      cases negative <;> rfl
    by_cases hrefused : str = rest ∨ rest ≠ []
    · refine iff_of_true (exact_of_refused hscan (by rw [hendp]; exact hrefused) hdenotes) ?_
      rintro ⟨hstr, rfl, -⟩
      exact hrefused.elim hstr fun hno => hno rfl
    · rw [exact_iff_tells hscan (by rw [hendp]; exact hrefused)]
      have hrest : rest = [] := by_contra fun hno => hrefused (Or.inr hno)
      subst hrest
      refine iff_of_false (fun htells => ?_) fun hno => hno ⟨fun hstr => hrefused (Or.inl hstr),
        rfl, hside⟩
      have herrstr := report_errstr str 0 (nearError negative) []
      rcases message_nearError negative with hmessage | hmessage
      · obtain ⟨v, hv, -⟩ := htells.tooLarge.mp (herrstr.trans hmessage)
        exact hdenotes v hv
      · obtain ⟨v, hv, -⟩ := htells.tooSmall.mp (herrstr.trans hmessage)
        exact hdenotes v hv
  · obtain rfl := hin hside
    exact iff_of_true (exact_of_refused hscan (Or.inl rfl) hdenotes) fun hno => hside hno.2.2

theorem verdict_ne (v minval maxval : Int) :
    verdict v minval maxval ≠ .initial ∧ verdict v minval maxval ≠ .invalid := by
  unfold verdict
  split_ifs <;> decide

theorem nearError_ne (negative : Bool) :
    nearError negative ≠ .initial ∧ nearError negative ≠ .invalid := by
  cases negative <;> decide

theorem scan_report {str rest : Bytes} {negative : Bool} {digits : List Nat} {minval maxval : Int}
    (hmin : -2 ^ 63 ≤ minval) (hmax : maxval < 2 ^ 63) (hrange : minval ≤ maxval)
    (h : Parts str negative digits rest) (hne : digits ≠ []) :
    ∃ found, scan str minval maxval = some found ∧ (report str found).endp = rest ∧
      ((report str found).errstr = none → (report str found).value = denoted negative digits) ∧
      ((report str found).errstr ≠ none → (report str found).value = 0) ∧
      (report str found).errstr ≠ some "invalid value" ∧
      (JumpsOver negative digits minval maxval ↔ (report str found).errstr ≠
        message (verdict (denoted negative digits) minval maxval)) := by
  obtain ⟨result, errval, hscan, hjump, hstay, hvalid⟩ := scan_digits hmin hmax hrange h hne
  obtain ⟨hvalue, hzero⟩ := @report_value str rest result errval
  have hplain : errval ≠ .initial ∧ errval ≠ .invalid := by
    by_cases hj : JumpsOver negative digits minval maxval
    · rw [hjump hj]
      exact nearError_ne negative
    · rw [hstay hj]
      exact verdict_ne _ _ _
  refine ⟨_, hscan, report_endp hplain.1 hplain.2, fun hnone => ?_, hzero, ?_, ?_⟩
  · rw [hvalue hnone]
    refine hvalid ?_
    rw [report_errstr] at hnone
    cases errval with
    | valid => rfl
    | initial => exact absurd rfl hplain.1
    | invalid | tooSmall | tooBig => exact absurd hnone (Option.some_ne_none _)
  · rw [report_errstr]
    cases errval with
    | invalid => exact absurd rfl hplain.2
    | initial | valid | tooSmall | tooBig => decide
  · rw [report_errstr]
    constructor
    · intro hj
      rw [hjump hj]
      exact message_nearError_ne hrange hj
    · intro hmessage
      by_contra hj
      exact hmessage (congrArg message (hstay hj))

theorem exact_iff_jumps {str rest : Bytes} {negative : Bool} {digits : List Nat}
    {minval maxval : Int} (hmin : -2 ^ 63 ≤ minval) (hmax : maxval < 2 ^ 63)
    (hrange : minval ≤ maxval) (h : Parts str negative digits rest) (hne : digits ≠ []) :
    Exact str minval maxval ↔ ¬ (rest = [] ∧ JumpsOver negative digits minval maxval) := by
  obtain ⟨found, hscan, hendp, hvalue, hzero, -, hjump⟩ := scan_report hmin hmax hrange h hne
  by_cases hrest : rest = []
  · subst hrest
    have hdenotes : ∀ w, Denotes str w [] ↔ w = denoted negative digits := by
      intro w
      rw [denotes_iff h]
      exact ⟨fun hw => hw.2.2, fun hw => ⟨rfl, hne, hw⟩⟩
    rw [exact_iff_tells hscan (by rw [hendp]; exact fun hno => hno.elim (h.ne_rest hne) fun h => h rfl),
      hjump]
    constructor
    · exact fun htells hno => hno.2 (htells.errstr_eq ((hdenotes _).mpr rfl))
    · exact fun hno => tells_of_number hrange hdenotes (by_contra fun h => hno ⟨rfl, h⟩) hvalue hzero
  · refine iff_of_true (exact_of_refused hscan (Or.inr (by rw [hendp]; exact hrest)) ?_)
      fun hno => hrest hno.1
    exact fun v hv => hrest ((denotes_iff h).mp hv).1.symm

theorem exact_iff {str : Bytes} {minval maxval : Int} (hmin : -2 ^ 63 ≤ minval)
    (hmax : maxval < 2 ^ 63) (hrange : minval ≤ maxval) :
    Exact str minval maxval ↔
      ¬ (str ≠ [] ∧ Blank str [] minval maxval) ∧ ¬ Jumps str [] minval maxval := by
  obtain ⟨negative, digits, rest, hparts⟩ := Parts.exists str
  rw [blank_iff hparts, jumps_iff hparts]
  by_cases hnil : digits = []
  · subst hnil
    rw [exact_iff_blank hmin hmax hrange hparts]
    exact ⟨fun h => ⟨fun hno => h ⟨hno.1, hno.2.2.1.symm, hno.2.2.2⟩, fun hno => hno.1 rfl⟩,
      fun h hno => h.1 ⟨hno.1, rfl, hno.2.1.symm, hno.2.2⟩⟩
  · rw [exact_iff_jumps hmin hmax hrange hparts hnil]
    exact ⟨fun h => ⟨fun hno => hnil hno.2.1, fun hno => h ⟨hno.2.1.symm, hno.2.2⟩⟩,
      fun h hno => h.2 ⟨hnil, hno.1.symm, hno.2⟩⟩

theorem tellsUpTo_iff {str rest : Bytes} {negative : Bool} {digits : List Nat} {answer : Answer}
    {minval maxval : Int} (h : Parts str negative digits rest) (hne : digits ≠ [])
    (hendp : answer.endp = rest) (hplain : answer.errstr ≠ some "invalid value") :
    TellsUpTo str answer minval maxval ↔
      Tells answer (fun v => ∃ rest, Denotes str v rest) minval maxval := by
  have hnumber : Denotes str (denoted negative digits) rest := (denotes_iff h).mpr ⟨rfl, hne, rfl⟩
  have hstr : answer.endp ≠ str := by
    rw [hendp]
    exact (h.ne_rest hne).symm
  constructor
  · intro htells
    refine ⟨fun v => ⟨fun hv => ?_, ?_⟩, htells.failure, ?_, ?_,
      iff_of_false hplain fun hno => hno ⟨_, _, hnumber⟩⟩
    · obtain ⟨hv, hin⟩ := (htells.success v rest).mp ⟨hv.1, hstr, hv.2, hendp⟩
      exact ⟨⟨rest, hv⟩, hin⟩
    · rintro ⟨⟨rest', hv⟩, hin⟩
      obtain ⟨hnone, -, hvalue, -⟩ := (htells.success v rest').mpr ⟨hv, hin⟩
      exact ⟨hnone, hvalue⟩
    · rw [htells.tooLarge]
      exact ⟨fun ⟨v, rest', hv, hlt⟩ => ⟨v, ⟨rest', hv⟩, hlt⟩,
        fun ⟨v, ⟨rest', hv⟩, hlt⟩ => ⟨v, rest', hv, hlt⟩⟩
    · rw [htells.tooSmall]
      exact ⟨fun ⟨v, rest', hv, hlt⟩ => ⟨v, ⟨rest', hv⟩, hlt⟩,
        fun ⟨v, ⟨rest', hv⟩, hlt⟩ => ⟨v, rest', hv, hlt⟩⟩
  · intro htells
    refine ⟨fun v rest' => ⟨?_, ?_⟩, htells.failure, ?_, ?_,
      iff_of_false (fun hno => hstr hno.2.1) fun hno => hno ⟨_, _, hnumber⟩⟩
    · rintro ⟨hnone, -, hvalue, hrest⟩
      obtain ⟨⟨rest'', hv⟩, hin⟩ := (htells.success v).mp ⟨hnone, hvalue⟩
      have hsame := ((denotes_iff h).mp hv).1
      rw [hsame, ← hendp, hrest] at hv
      exact ⟨hv, hin⟩
    · rintro ⟨hv, hin⟩
      obtain ⟨hnone, hvalue⟩ := (htells.success v).mpr ⟨⟨rest', hv⟩, hin⟩
      exact ⟨hnone, hstr, hvalue, hendp.trans ((denotes_iff h).mp hv).1.symm⟩
    · rw [htells.tooLarge]
      exact ⟨fun ⟨v, ⟨rest', hv⟩, hlt⟩ => ⟨v, rest', hv, hlt⟩,
        fun ⟨v, rest', hv, hlt⟩ => ⟨v, ⟨rest', hv⟩, hlt⟩⟩
    · rw [htells.tooSmall]
      exact ⟨fun ⟨v, ⟨rest', hv⟩, hlt⟩ => ⟨v, rest', hv, hlt⟩,
        fun ⟨v, rest', hv, hlt⟩ => ⟨v, ⟨rest', hv⟩, hlt⟩⟩

theorem exactUpTo_iff_tellsUpTo {str : Bytes} {found : Int × StrtonumErr × Bytes}
    {minval maxval : Int} (hscan : scan str minval maxval = some found) :
    ExactUpTo str minval maxval ↔ TellsUpTo str (report str found) minval maxval := by
  have hanswer : sudoStrtonumx str minval maxval = some (report str found) := by
    unfold sudoStrtonumx
    rw [hscan, Option.map_some]
  constructor
  · rintro ⟨answer, hsome, htells⟩
    obtain rfl := Option.some.inj (hanswer.symm.trans hsome)
    exact htells
  · exact fun htells => ⟨_, hanswer, htells⟩

theorem exactUpTo_iff_blank {str rest : Bytes} {negative : Bool} {minval maxval : Int}
    (hmin : -2 ^ 63 ≤ minval) (hmax : maxval < 2 ^ 63) (hrange : minval ≤ maxval)
    (h : Parts str negative [] rest) :
    ExactUpTo str minval maxval ↔ ¬ Outside negative minval maxval := by
  have hdenotes : ∀ v rest, ¬ Denotes str v rest :=
    fun v rest' hv => ((denotes_iff h).mp hv).2.1 rfl
  obtain ⟨errval, hscan, hout, hin⟩ := scan_nil hmin hmax hrange h
  rw [exactUpTo_iff_tellsUpTo hscan]
  by_cases hside : Outside negative minval maxval
  · obtain rfl := hout hside
    refine iff_of_false (fun htells => ?_) fun hno => hno hside
    have herrstr := report_errstr str 0 (nearError negative) rest
    rcases message_nearError negative with hmessage | hmessage
    · obtain ⟨v, rest', hv, -⟩ := htells.tooLarge.mp (herrstr.trans hmessage)
      exact hdenotes v rest' hv
    · obtain ⟨v, rest', hv, -⟩ := htells.tooSmall.mp (herrstr.trans hmessage)
      exact hdenotes v rest' hv
  · obtain rfl := hin hside
    refine iff_of_true ⟨fun v rest' => iff_of_false (fun hno => hno.2.1 rfl)
      fun hno => hdenotes v rest' hno.1, fun hno => absurd rfl hno,
      iff_of_false (fun hno => Option.some_ne_none _ hno.symm)
        fun ⟨v, rest', hv, _⟩ => hdenotes v rest' hv,
      iff_of_false (fun hno => Option.some_ne_none _ hno.symm)
        fun ⟨v, rest', hv, _⟩ => hdenotes v rest' hv,
      iff_of_true ⟨rfl, rfl, rfl⟩ fun ⟨v, rest', hv⟩ => hdenotes v rest' hv⟩ hside

theorem exactUpTo_iff_jumps {str rest : Bytes} {negative : Bool} {digits : List Nat}
    {minval maxval : Int} (hmin : -2 ^ 63 ≤ minval) (hmax : maxval < 2 ^ 63)
    (hrange : minval ≤ maxval) (h : Parts str negative digits rest) (hne : digits ≠ []) :
    ExactUpTo str minval maxval ↔ ¬ JumpsOver negative digits minval maxval := by
  have hdenotes : ∀ w, (∃ rest, Denotes str w rest) ↔ w = denoted negative digits := by
    intro w
    simp only [denotes_iff h]
    exact ⟨fun ⟨_, hw⟩ => hw.2.2, fun hw => ⟨rest, rfl, hne, hw⟩⟩
  obtain ⟨found, hscan, hendp, hvalue, hzero, hplain, hjump⟩ := scan_report hmin hmax hrange h hne
  rw [exactUpTo_iff_tellsUpTo hscan, tellsUpTo_iff h hne hendp hplain, hjump]
  constructor
  · exact fun htells hno => hno (htells.errstr_eq ((hdenotes _).mpr rfl))
  · exact fun hno => tells_of_number hrange hdenotes (by_contra hno) hvalue hzero

theorem exactUpTo_iff {str : Bytes} {minval maxval : Int} (hmin : -2 ^ 63 ≤ minval)
    (hmax : maxval < 2 ^ 63) (hrange : minval ≤ maxval) :
    ExactUpTo str minval maxval ↔
      (¬ ∃ rest, Blank str rest minval maxval) ∧ ¬ ∃ rest, Jumps str rest minval maxval := by
  obtain ⟨negative, digits, rest, hparts⟩ := Parts.exists str
  simp only [blank_iff hparts, jumps_iff hparts]
  by_cases hnil : digits = []
  · subst hnil
    rw [exactUpTo_iff_blank hmin hmax hrange hparts]
    exact ⟨fun h => ⟨fun ⟨_, hno⟩ => h hno.2.2, fun ⟨_, hno⟩ => hno.1 rfl⟩,
      fun h hno => h.1 ⟨rest, rfl, rfl, hno⟩⟩
  · rw [exactUpTo_iff_jumps hmin hmax hrange hparts hnil]
    exact ⟨fun h => ⟨fun ⟨_, hno⟩ => hnil hno.1, fun ⟨_, hno⟩ => h hno.2.2⟩,
      fun h hno => h.2 ⟨rest, hnil, rfl, hno⟩⟩

/-- Both functions are exact except for the error that goes with a number or with none. -/
theorem sudoStrtonum_iff {str : Bytes} {minval maxval : Int} (hmin : -2 ^ 63 ≤ minval)
    (hmax : maxval < 2 ^ 63) (hrange : minval ≤ maxval) :
    (Exact str minval maxval ↔
      ¬ (str ≠ [] ∧ Blank str [] minval maxval) ∧ ¬ Jumps str [] minval maxval) ∧
    (ExactUpTo str minval maxval ↔
      (¬ ∃ rest, Blank str rest minval maxval) ∧ ¬ ∃ rest, Jumps str rest minval maxval) :=
  ⟨exact_iff hmin hmax hrange, exactUpTo_iff hmin hmax hrange⟩

/-- The number 7 in the range from -5 to 5 is told to be too large. -/
theorem sudoStrtonum_seven :
    Exact [55] (-5) 5 ∧ sudoStrtonum [55] (-5) 5 =
      some { value := 0, errstr := some "value too large", errno := some .erange, endp := [] } := by
  refine ⟨((sudoStrtonum_iff (by decide) (by decide) (by decide)).1).mpr ?_, by decide⟩
  have hparts : Parts [55] false [7] [] := parts_eq_iff.mp (by decide)
  have hinside : ¬ Outside false (-5) 5 := fun h => absurd (show (0 : Int) < -5 from h) (by decide)
  rw [blank_iff hparts, jumps_iff hparts]
  exact ⟨fun hno => hinside hno.2.2.2, fun hno => hinside hno.2.2.1⟩

/-- 60 is too large for the range from 10 to 50, and is told to be too small. -/
theorem not_exact_sixty : ¬ Exact [54, 48] 10 50 := by
  rintro ⟨answer, hsome, htells⟩
  have hanswer : sudoStrtonum [54, 48] 10 50 = some
      { value := 0, errstr := some "value too small", errno := some .erange, endp := [] } := by decide
  obtain rfl := Option.some.inj (hanswer.symm.trans hsome)
  have hparts : Parts [54, 48] false [6, 0] [] := parts_eq_iff.mp (by decide)
  have hdenotes : Denotes [54, 48] 60 [] := (denotes_iff hparts).mpr ⟨rfl, by decide, by decide⟩
  exact absurd (htells.tooLarge.mpr ⟨60, hdenotes, by decide⟩) (by decide)

end NextBSD.Util
