import NextBSD.Util.Strtonum

/-!
# timeout.c: command timeouts

The suffixes of the groups are looked up in `"dhms"`, from where the last one was found.
-/

namespace NextBSD.Sudoers.Timeout

open Digits
open Iolog (Bytes isdigit digitText isLongLong)
open Util (parts Parts denoted)

def intMax : Int := 2 ^ 31 - 1

/-- How a call fails: `undefined` is an overflow. -/
inductive TimeoutErr where
  | einval | erange | undefined
  deriving DecidableEq, Repr

def ofInt (n : Int) : Except TimeoutErr Int :=
  if -2 ^ 31 ≤ n ∧ n ≤ intMax then .ok n else .error .undefined

def ofLong (n : Int) : Except TimeoutErr Int :=
  if isLongLong n then .ok n else .error .undefined

/-- `strtol` in base ten: the number, whether it is out of range, and what follows.  Without digits
there is no conversion. -/
def strtol (s : Bytes) : Option (Int × Bool × Bytes) :=
  let (negative, digits, rest) := parts s
  if digits = [] then none
  else
    let n := denoted negative digits
    if n < -2 ^ 63 then some (-2 ^ 63, true, rest)
    else if 2 ^ 63 ≤ n then some (2 ^ 63 - 1, true, rest)
    else some (n, false, rest)

def tolower (c : UInt8) : UInt8 := if 65 ≤ c ∧ c ≤ 90 then c + 32 else c

def suffixes : Bytes := [100, 104, 109, 115]

/-- The search from the index on; what is left of the suffixes stands for the index. -/
def findSuffix (ch : UInt8) : Bytes → Option Bytes
  | [] => none
  | c :: rest => if c = ch then some (c :: rest) else findSuffix ch rest

def applySuffix (ch : UInt8) (l : Int) : Except TimeoutErr Int :=
  if ch = 100 then
    if intMax / (24 * 60 * 60) < l then .error .erange else ofLong (l * (24 * 60 * 60))
  else if ch = 104 then
    if intMax / (60 * 60) < l then .error .erange else ofLong (l * (60 * 60))
  else if ch = 109 then
    if intMax / 60 < l then .error .erange else ofLong (l * 60)
  else .ok l

def accumulate (timeout l : Int) : Except TimeoutErr Int := do
  let room ← ofInt (intMax - timeout)
  if room < l then .error .erange else ofInt (timeout + l)

theorem strtol_length {s ep : Bytes} {l : Int} {erange : Bool}
    (h : strtol s = some (l, erange, ep)) : ep.length < s.length := by
  obtain ⟨negative, digits, rest, hparts⟩ := Util.Parts.exists s
  unfold strtol at h
  rw [Util.parts_eq_iff.mpr hparts] at h
  obtain ⟨blanks, sign, rfl, -⟩ := hparts
  dsimp only at h
  split_ifs at h with hnil
  all_goals
    obtain rfl : rest = ep := congrArg (·.2.2) (Option.some.inj h)
    have hpos := List.length_pos_of_ne_nil hnil
    unfold digitText
    simp only [List.length_append, List.length_map]
    omega

def parseLoop (index : Bytes) (timeout : Int) (cp : Bytes) : Except TimeoutErr Int :=
  match _h : strtol cp with
  | none => .error .einval
  | some (l, erange, ep) =>
    if erange ∨ l < 0 ∨ intMax < l then .error .erange
    else
      match ep with
      | [] => accumulate timeout l
      | c :: ep =>
        match findSuffix (tolower c) index with
        | none => .error .einval
        | some index => do
          let l ← applySuffix (tolower c) l
          let timeout ← accumulate timeout l
          if ep = [] then pure timeout else parseLoop index timeout ep
termination_by cp.length
decreasing_by
  have hshort := strtol_length _h
  rw [List.length_cons] at hshort
  omega

def parseTimeout (timestr : Bytes) : Except TimeoutErr Int := parseLoop suffixes 0 timestr

def IsNumber (digits : List Nat) : Prop := digits ≠ [] ∧ ∀ d ∈ digits, d < 10

def unitOf (ch : UInt8) : Nat :=
  if ch = 100 then 24 * 60 * 60 else if ch = 104 then 60 * 60 else if ch = 109 then 60 else 1

/-- A timeout as it can be read: numbers with a suffix, and a number without one. -/
structure Reading where
  groups : List (List Nat × UInt8)
  plain : Option (List Nat)

def Reading.text (r : Reading) : Bytes :=
  r.groups.flatMap (fun g => digitText g.1 ++ [g.2]) ++ r.plain.elim [] digitText

def Reading.total (r : Reading) : Nat :=
  (r.groups.map (fun g => readDigits 10 g.1 * unitOf (tolower g.2))).sum +
    r.plain.elim 0 (readDigits 10)

def Reading.letters (r : Reading) : Bytes := r.groups.map (fun g => tolower g.2)

/-- The suffixes are known and stand in the order of `"dhms"`, which is that of the letters. -/
structure Reading.InOrder (r : Reading) (index : Bytes) : Prop where
  numbers : ∀ g ∈ r.groups, IsNumber g.1
  plain : ∀ digits, r.plain = some digits → IsNumber digits
  letters : ∀ c ∈ r.letters, c ∈ index
  order : r.letters.Pairwise (· ≤ ·)

def Reading.Nonempty (r : Reading) : Prop := r.groups ≠ [] ∨ r.plain ≠ none

def Reading.Once (r : Reading) : Prop := r.letters.Nodup ∧ (r.plain ≠ none → 115 ∉ r.letters)

def Denotes (s : Bytes) (v : Int) : Prop :=
  ∃ r : Reading, r.text = s ∧ r.InOrder suffixes ∧ r.Nonempty ∧ r.Once ∧ (r.total : Int) = v ∧
    v ≤ intMax

def isalnum (c : UInt8) : Bool := isdigit c || (65 ≤ c && c ≤ 90) || (97 ≤ c && c ≤ 122)

theorem isalnum_plain : ∀ c : UInt8, isalnum c = true → Iolog.isspace c = false ∧ c ≠ 43 ∧ c ≠ 45 :=
  Iolog.forall_byte (by decide +kernel)

theorem isdigit_suffix : ∀ c : UInt8, tolower c ∈ suffixes → isdigit c = false :=
  Iolog.forall_byte (by decide +kernel)

theorem parts_number {digits : List Nat} (hdigits : IsNumber digits) {rest : Bytes}
    (hrest : ∀ c cp, rest = c :: cp → isdigit c = false) :
    Parts (digitText digits ++ rest) false digits rest :=
  ⟨[], [], rfl, fun _ h => absurd h List.not_mem_nil, Or.inr ⟨rfl, Or.inl rfl⟩, hdigits.2, hrest,
    fun h => absurd h hdigits.1⟩

theorem strtol_number {digits : List Nat} (hdigits : IsNumber digits) {rest : Bytes}
    (hrest : ∀ c cp, rest = c :: cp → isdigit c = false) :
    strtol (digitText digits ++ rest) =
      if (readDigits 10 digits : Int) < 2 ^ 63 then some ((readDigits 10 digits : Int), false, rest)
      else some (2 ^ 63 - 1, true, rest) := by
  have hvalue : denoted false digits = (readDigits 10 digits : Int) := rfl
  unfold strtol
  rw [Util.parts_eq_iff.mpr (parts_number hdigits hrest)]
  dsimp only
  rw [if_neg hdigits.1, hvalue, if_neg (by omega)]
  by_cases hlarge : (readDigits 10 digits : Int) < 2 ^ 63
  · rw [if_neg (Int.not_le.mpr hlarge), if_pos hlarge]
  · rw [if_pos (Int.not_lt.mp hlarge), if_neg hlarge]

theorem number_or_fails {cp : Bytes} (h : ∀ c ∈ cp, isalnum c = true) :
    strtol cp = none ∨ ∃ digits rest, IsNumber digits ∧ cp = digitText digits ++ rest ∧
      ∀ c cp, rest = c :: cp → isdigit c = false := by
  have hhead : ∀ c rest, cp = c :: rest → Iolog.isspace c = false ∧ c ≠ 43 ∧ c ≠ 45 :=
    fun c rest hcp => isalnum_plain c (h c (hcp ▸ List.mem_cons_self))
  have htext : cp.takeWhile isdigit ++ cp.dropWhile isdigit = cp := List.takeWhile_append_dropWhile
  have hrest : ∀ c rest, cp.dropWhile isdigit = c :: rest → isdigit c = false := by
    intro c rest hcp
    have hnot := List.head?_dropWhile_not isdigit cp
    rw [hcp] at hnot
    exact hnot
  have hdigits : ∀ d ∈ (cp.takeWhile isdigit).map (fun c => (c - 48).toNat), d < 10 := by
    intro d hd
    obtain ⟨c, hc, rfl⟩ := List.mem_map.mp hd
    exact Util.digit_lt c (List.mem_takeWhile_imp hc)
  by_cases hnil : cp.takeWhile isdigit = []
  · refine Or.inl ?_
    rw [hnil, List.nil_append] at htext
    have hparts : Parts cp false [] cp := by
      refine ⟨[], [], rfl, fun c h => absurd h List.not_mem_nil, Or.inr ⟨rfl, Or.inl rfl⟩,
        fun d h => absurd h List.not_mem_nil, fun c rest hcp => hrest c rest (htext.trans hcp), ?_⟩
      exact fun _ _ c rest hcp => hhead c rest hcp
    unfold strtol
    rw [Util.parts_eq_iff.mpr hparts]
    rfl
  · refine Or.inr ⟨_, cp.dropWhile isdigit, ⟨?_, hdigits⟩, ?_, hrest⟩
    · exact fun hno => hnil (List.map_eq_nil_iff.mp hno)
    · rw [Util.digitText_map, htext]

theorem accumulate_eq {timeout l : Int} (htimeout : 0 ≤ timeout ∧ timeout ≤ intMax)
    (hl : 0 ≤ l) : accumulate timeout l =
      if timeout + l ≤ intMax then .ok (timeout + l) else .error .erange := by
  unfold intMax at htimeout
  have hroom : ofInt (intMax - timeout) = .ok (intMax - timeout) := by
    refine if_pos ?_
    unfold intMax
    omega
  unfold accumulate
  rw [hroom]
  show (if intMax - timeout < l then _ else _) = _
  by_cases hle : timeout + l ≤ intMax
  · rw [if_neg (by omega), if_pos hle]
    exact if_pos ⟨by omega, hle⟩
  · rw [if_pos (by omega), if_neg hle]

theorem applySuffix_eq (ch : UInt8) {l : Int} (hl : 0 ≤ l ∧ l ≤ intMax) :
    applySuffix ch l =
      if l * unitOf ch ≤ intMax then .ok (l * unitOf ch) else .error .erange := by
  have hlong : ∀ n : Int, 0 ≤ n → n ≤ intMax → ofLong n = .ok n := by
    intro n hn hmax
    unfold intMax at hmax
    refine if_pos ?_
    have hrange : -2 ^ 63 ≤ n ∧ n < 2 ^ 63 := by omega
    simpa [isLongLong] using hrange
  have hscaled : ∀ unit : Int, 0 < unit →
      (if intMax / unit < l then .error .erange else ofLong (l * unit)) =
        (if l * unit ≤ intMax then .ok (l * unit) else .error .erange : Except TimeoutErr Int) := by
    intro unit hunit
    have hiff : l * unit ≤ intMax ↔ l ≤ intMax / unit := (Int.le_ediv_iff_mul_le hunit).symm
    by_cases hle : l * unit ≤ intMax
    · rw [if_neg (Int.not_lt.mpr (hiff.mp hle)), if_pos hle,
        hlong _ (Int.mul_nonneg hl.1 (Int.le_of_lt hunit)) hle]
    · rw [if_pos (Int.not_le.mp fun h => hle (hiff.mpr h)), if_neg hle]
  unfold applySuffix unitOf
  by_cases hday : ch = 100
  · rw [if_pos hday, if_pos hday]
    exact hscaled (24 * 60 * 60) (by decide)
  · rw [if_neg hday, if_neg hday]
    by_cases hhour : ch = 104
    · rw [if_pos hhour, if_pos hhour]
      exact hscaled (60 * 60) (by decide)
    · rw [if_neg hhour, if_neg hhour]
      by_cases hminute : ch = 109
      · rw [if_pos hminute, if_pos hminute]
        exact hscaled 60 (by decide)
      · have hone : l * ((1 : Nat) : Int) = l := Int.mul_one l
        rw [if_neg hminute, if_neg hminute, hone, if_pos hl.2]

theorem unitOf_pos (ch : UInt8) : 0 < unitOf ch := by
  unfold unitOf
  split_ifs <;> decide

theorem findSuffix_of_mem {ch : UInt8} {index : Bytes} (hsorted : index.Pairwise (· < ·))
    (h : ch ∈ index) : ∃ next, findSuffix ch index = some next ∧ next.Pairwise (· < ·) ∧
      ∀ c, c ∈ next ↔ c ∈ index ∧ ch ≤ c := by
  induction index with
  | nil => exact absurd h List.not_mem_nil
  | cons d index ih =>
    obtain ⟨hd, htail⟩ := List.pairwise_cons.mp hsorted
    unfold findSuffix
    by_cases hsame : d = ch
    · subst hsame
      refine ⟨d :: index, if_pos rfl, hsorted, fun c => ⟨fun hc => ⟨hc, ?_⟩, fun hc => hc.1⟩⟩
      rcases List.mem_cons.mp hc with rfl | hc
      · exact UInt8.le_refl c
      · exact UInt8.le_of_lt (hd c hc)
    · have hch : ch ∈ index := (List.mem_cons.mp h).resolve_left fun heq => hsame heq.symm
      obtain ⟨next, hfind, hnext, hiff⟩ := ih htail hch
      refine ⟨next, (if_neg hsame).trans hfind, hnext, fun c => ?_⟩
      rw [hiff, List.mem_cons]
      refine ⟨fun hc => ⟨Or.inr hc.1, hc.2⟩, ?_⟩
      rintro ⟨rfl | hc, hle⟩
      · exact absurd hle (UInt8.not_le.mpr (hd ch hch))
      · exact ⟨hc, hle⟩

theorem findSuffix_eq_none {ch : UInt8} {index : Bytes} (h : ch ∉ index) :
    findSuffix ch index = none := by
  induction index with
  | nil => rfl
  | cons d index ih =>
    unfold findSuffix
    have hne : d ≠ ch := by
      rintro rfl
      exact h List.mem_cons_self
    rw [if_neg hne]
    exact ih fun hmem => h (List.mem_cons_of_mem d hmem)

/-! ## The loop -/

theorem parseLoop_none {index cp : Bytes} {timeout : Int} (h : strtol cp = none) :
    parseLoop index timeout cp = .error .einval := by
  rw [parseLoop]
  split
  · rfl
  · next heq => exact absurd (h.symm.trans heq).symm (Option.some_ne_none _)

theorem parseLoop_some {index cp ep : Bytes} {timeout l : Int} {erange : Bool}
    (h : strtol cp = some (l, erange, ep)) :
    parseLoop index timeout cp =
      if erange ∨ l < 0 ∨ intMax < l then .error .erange
      else
        match ep with
        | [] => accumulate timeout l
        | c :: ep =>
          match findSuffix (tolower c) index with
          | none => .error .einval
          | some index => (do
            let l ← applySuffix (tolower c) l
            let timeout ← accumulate timeout l
            if ep = [] then pure timeout else parseLoop index timeout ep) := by
  rw [parseLoop]
  split
  · next heq => exact absurd (h.symm.trans heq) (Option.some_ne_none _)
  · next l' erange' ep' heq =>
    obtain ⟨rfl, rfl, rfl⟩ : l = l' ∧ erange = erange' ∧ ep = ep' := by
      have hsame := Option.some.inj (h.symm.trans heq)
      exact ⟨congrArg (·.1) hsame, congrArg (·.2.1) hsame, congrArg (·.2.2) hsame⟩
    rfl

theorem parseLoop_large {digits : List Nat} (hdigits : IsNumber digits) {rest : Bytes}
    (hrest : ∀ c cp, rest = c :: cp → isdigit c = false) (index : Bytes) (timeout : Int)
    (h : intMax < readDigits 10 digits) :
    parseLoop index timeout (digitText digits ++ rest) = .error .erange := by
  have hstrtol := strtol_number hdigits hrest
  by_cases hlong : (readDigits 10 digits : Int) < 2 ^ 63
  · rw [if_pos hlong] at hstrtol
    rw [parseLoop_some hstrtol, if_pos (Or.inr (Or.inr h))]
  · rw [if_neg hlong] at hstrtol
    rw [parseLoop_some hstrtol, if_pos (Or.inl rfl)]

theorem parseLoop_plain {digits : List Nat} (hdigits : IsNumber digits) (index : Bytes)
    {timeout : Int} (htimeout : 0 ≤ timeout ∧ timeout ≤ intMax) :
    parseLoop index timeout (digitText digits) =
      if timeout + readDigits 10 digits ≤ intMax then .ok (timeout + readDigits 10 digits)
      else .error .erange := by
  have hnil : ∀ c cp, ([] : Bytes) = c :: cp → isdigit c = false :=
    fun c cp h => absurd h.symm (List.cons_ne_nil _ _)
  by_cases hlarge : intMax < readDigits 10 digits
  · have hfail := parseLoop_large hdigits hnil index timeout hlarge
    rw [List.append_nil] at hfail
    rw [hfail, if_neg (by omega)]
  · have hstrtol := strtol_number hdigits hnil
    have hlong : (readDigits 10 digits : Int) < 2 ^ 63 := by
      unfold intMax at hlarge
      omega
    rw [List.append_nil, if_pos hlong] at hstrtol
    have hok : ¬ (false = true ∨ (readDigits 10 digits : Int) < 0 ∨
        intMax < readDigits 10 digits) := by
      rintro (h | h | h)
      · exact Bool.false_ne_true h
      · omega
      · exact hlarge h
    rw [parseLoop_some hstrtol, if_neg hok]
    exact accumulate_eq htimeout (Int.natCast_nonneg _)

theorem parseLoop_group {digits : List Nat} (hdigits : IsNumber digits) {c : UInt8} {ep : Bytes}
    (hc : isdigit c = false) {index : Bytes} {timeout : Int}
    (htimeout : 0 ≤ timeout ∧ timeout ≤ intMax) :
    parseLoop index timeout (digitText digits ++ c :: ep) =
      if intMax < readDigits 10 digits then .error .erange
      else
        match findSuffix (tolower c) index with
        | none => .error .einval
        | some index =>
          if timeout + readDigits 10 digits * unitOf (tolower c) ≤ intMax then
            if ep = [] then .ok (timeout + readDigits 10 digits * unitOf (tolower c))
            else parseLoop index (timeout + readDigits 10 digits * unitOf (tolower c)) ep
          else .error .erange := by
  have hstop : ∀ b cp, c :: ep = b :: cp → isdigit b = false := by
    intro b cp h
    rw [← (List.cons.inj h).1]
    exact hc
  by_cases hlarge : intMax < readDigits 10 digits
  · rw [if_pos hlarge]
    exact parseLoop_large hdigits hstop index timeout hlarge
  · have hstrtol := strtol_number hdigits hstop
    have hlong : (readDigits 10 digits : Int) < 2 ^ 63 := by
      unfold intMax at hlarge
      omega
    rw [if_pos hlong] at hstrtol
    have hok : ¬ (false = true ∨ (readDigits 10 digits : Int) < 0 ∨
        intMax < readDigits 10 digits) := by
      rintro (h | h | h)
      · exact Bool.false_ne_true h
      · omega
      · exact hlarge h
    rw [parseLoop_some hstrtol, if_neg hok, if_neg hlarge]
    dsimp only
    cases findSuffix (tolower c) index with
    | none => rfl
    | some next =>
      have hn : (0 : Int) ≤ readDigits 10 digits ∧ (readDigits 10 digits : Int) ≤ intMax :=
        ⟨Int.natCast_nonneg _, Int.not_lt.mp hlarge⟩
      have hproduct : (0 : Int) ≤ readDigits 10 digits * unitOf (tolower c) :=
        Int.mul_nonneg hn.1 (Int.natCast_nonneg _)
      dsimp only
      rw [applySuffix_eq (tolower c) hn]
      by_cases hscaled : (readDigits 10 digits : Int) * unitOf (tolower c) ≤ intMax
      · rw [if_pos hscaled]
        show (accumulate timeout _ >>= _) = _
        rw [accumulate_eq htimeout hproduct]
        by_cases hsum : timeout + readDigits 10 digits * unitOf (tolower c) ≤ intMax
        · rw [if_pos hsum, if_pos hsum]
          rfl
        · rw [if_neg hsum, if_neg hsum]
          rfl
      · rw [if_neg hscaled, if_neg (by omega)]
        rfl

def Reading.cons (digits : List Nat) (c : UInt8) (r : Reading) : Reading :=
  { r with groups := (digits, c) :: r.groups }

theorem Reading.text_cons (digits : List Nat) (c : UInt8) (r : Reading) :
    (r.cons digits c).text = digitText digits ++ c :: r.text := by
  unfold Reading.cons Reading.text
  rw [List.flatMap_cons, List.append_assoc, List.append_assoc]
  rfl

theorem Reading.total_cons (digits : List Nat) (c : UInt8) (r : Reading) :
    (r.cons digits c).total = readDigits 10 digits * unitOf (tolower c) + r.total := by
  unfold Reading.cons Reading.total
  rw [List.map_cons, List.sum_cons, Nat.add_assoc]

theorem Reading.letters_cons (digits : List Nat) (c : UInt8) (r : Reading) :
    (r.cons digits c).letters = tolower c :: r.letters := rfl

theorem digitText_ne_nil {digits : List Nat} (h : IsNumber digits) : digitText digits ≠ [] :=
  fun hno => h.1 (List.map_eq_nil_iff.mp hno)

theorem Reading.text_eq_nil {r : Reading} {index : Bytes} (h : r.InOrder index) :
    (r.text = [] ↔ ¬ r.Nonempty) ∧ (r.text = [] → r.total = 0) := by
  obtain ⟨groups, plain⟩ := r
  cases groups with
  | cons g groups =>
    have hne : (Reading.mk (g :: groups) plain).text ≠ [] := by
      intro hno
      have hcons := Reading.text_cons g.1 g.2 ⟨groups, plain⟩
      change (Reading.mk (g :: groups) plain).text = _ at hcons
      rw [hno] at hcons
      exact absurd hcons.symm (List.append_ne_nil_of_right_ne_nil _ (List.cons_ne_nil _ _))
    exact ⟨iff_of_false hne fun hno => hno (Or.inl (List.cons_ne_nil _ _)), fun hno => absurd hno hne⟩
  | nil =>
    cases plain with
    | none => exact ⟨iff_of_true rfl fun hno => hno.elim (fun h => h rfl) fun h => h rfl, fun _ => rfl⟩
    | some digits =>
      have hne : (Reading.mk [] (some digits)).text ≠ [] := digitText_ne_nil (h.plain digits rfl)
      exact ⟨iff_of_false hne fun hno => hno (Or.inr (Option.some_ne_none _)),
        fun hno => absurd hno hne⟩

theorem Reading.InOrder.of_cons {digits : List Nat} {c : UInt8} {r : Reading} {index next : Bytes}
    (h : (r.cons digits c).InOrder index) (hnext : ∀ b, b ∈ next ↔ b ∈ index ∧ tolower c ≤ b) :
    r.InOrder next := by
  have hletters := h.letters
  have horder := h.order
  rw [Reading.letters_cons] at hletters horder
  obtain ⟨hle, horder⟩ := List.pairwise_cons.mp horder
  exact ⟨fun g hg => h.numbers g (List.mem_cons_of_mem _ hg), h.plain,
    fun b hb => (hnext b).mpr ⟨hletters b (List.mem_cons_of_mem _ hb), hle b hb⟩, horder⟩

theorem Reading.InOrder.cons {digits : List Nat} {c : UInt8} {r : Reading} {index next : Bytes}
    (h : r.InOrder next) (hdigits : IsNumber digits) (hc : tolower c ∈ index)
    (hnext : ∀ b, b ∈ next ↔ b ∈ index ∧ tolower c ≤ b) : (r.cons digits c).InOrder index := by
  refine ⟨?_, h.plain, ?_, ?_⟩
  · intro g hg
    rcases List.mem_cons.mp hg with rfl | hg
    · exact hdigits
    · exact h.numbers g hg
  · intro b hb
    rcases List.mem_cons.mp hb with rfl | hb
    · exact hc
    · exact ((hnext b).mp (h.letters b hb)).1
  · exact List.pairwise_cons.mpr ⟨fun b hb => ((hnext b).mp (h.letters b hb)).2, h.order⟩

theorem parseLoop_complete (groups : List (List Nat × UInt8)) (plain : Option (List Nat))
    {index : Bytes} {timeout : Int} (hsorted : index.Pairwise (· < ·))
    (hindex : ∀ c ∈ index, c ∈ suffixes) (h : (Reading.mk groups plain).InOrder index)
    (hne : (Reading.mk groups plain).Nonempty) (htimeout : 0 ≤ timeout ∧ timeout ≤ intMax)
    (htotal : timeout + (Reading.mk groups plain).total ≤ intMax) :
    parseLoop index timeout (Reading.mk groups plain).text =
      .ok (timeout + (Reading.mk groups plain).total) := by
  induction groups generalizing index timeout with
  | nil =>
    cases plain with
    | none => exact absurd hne fun hno => hno.elim (fun h => h rfl) fun h => h rfl
    | some digits =>
      have hvalue : (Reading.mk [] (some digits)).total = readDigits 10 digits := Nat.zero_add _
      rw [hvalue] at htotal ⊢
      show parseLoop index timeout (digitText digits) = _
      rw [parseLoop_plain (h.plain digits rfl) index htimeout, if_pos htotal]
  | cons g groups ih =>
    obtain ⟨digits, c⟩ := g
    change ((Reading.mk groups plain).cons digits c).InOrder index at h
    change timeout + ((Reading.mk groups plain).cons digits c).total ≤ intMax at htotal
    show parseLoop index timeout ((Reading.mk groups plain).cons digits c).text =
      .ok (timeout + ((Reading.mk groups plain).cons digits c).total)
    have hdigits : IsNumber digits := h.numbers (digits, c) List.mem_cons_self
    have hc : tolower c ∈ index := h.letters (tolower c) List.mem_cons_self
    obtain ⟨next, hfind, hnext, hiff⟩ := findSuffix_of_mem hsorted hc
    have htail := h.of_cons hiff
    rw [Reading.total_cons] at htotal ⊢
    have hunit : readDigits 10 digits ≤ readDigits 10 digits * unitOf (tolower c) :=
      Nat.le_mul_of_pos_right _ (unitOf_pos _)
    generalize hproduct : readDigits 10 digits * unitOf (tolower c) = product at htotal hunit ⊢
    have hcast : (readDigits 10 digits : Int) * unitOf (tolower c) = product := by
      rw [← hproduct, Int.natCast_mul]
    rw [Reading.text_cons, parseLoop_group hdigits (isdigit_suffix c (hindex _ hc)) htimeout,
      if_neg (by omega), hfind]
    dsimp only
    rw [hcast, if_pos (by omega)]
    by_cases hend : (Reading.mk groups plain).text = []
    · rw [if_pos hend, (Reading.text_eq_nil htail).2 hend, Nat.add_zero]
    · have hmore : (Reading.mk groups plain).Nonempty :=
        not_not.mp fun hno => hend ((Reading.text_eq_nil htail).1.mpr hno)
      rw [if_neg hend, ih hnext (fun b hb => hindex b ((hiff b).mp hb).1) htail hmore (by omega)
        (by omega)]
      congr 1
      omega

theorem parseLoop_sound {index cp : Bytes} {timeout : Int} (hcp : ∀ c ∈ cp, isalnum c = true)
    (hsorted : index.Pairwise (· < ·)) (hindex : ∀ c ∈ index, c ∈ suffixes)
    (htimeout : 0 ≤ timeout ∧ timeout ≤ intMax) :
    (∃ e, parseLoop index timeout cp = .error e ∧ e ≠ .undefined) ∨
      ∃ r : Reading, r.text = cp ∧ r.InOrder index ∧ r.Nonempty ∧ timeout + r.total ≤ intMax ∧
        parseLoop index timeout cp = .ok (timeout + r.total) := by
  induction hn : cp.length using Nat.strong_induction_on generalizing index timeout cp with
  | _ n ih =>
    rcases number_or_fails hcp with hnone | ⟨digits, rest, hdigits, rfl, hrest⟩
    · exact Or.inl ⟨.einval, parseLoop_none hnone, by decide⟩
    · cases rest with
      | nil =>
        rw [List.append_nil, parseLoop_plain hdigits index htimeout]
        by_cases hle : timeout + readDigits 10 digits ≤ intMax
        · refine Or.inr ⟨⟨[], some digits⟩, rfl, ?_, Or.inr (Option.some_ne_none _), ?_, ?_⟩
          · exact ⟨fun g hg => absurd hg List.not_mem_nil, fun ds hds => Option.some.inj hds ▸ hdigits,
              fun c hc => absurd hc List.not_mem_nil, List.Pairwise.nil⟩
          · show timeout + ((0 + readDigits 10 digits : Nat) : Int) ≤ intMax
            rw [Nat.zero_add]
            exact hle
          · show _ = Except.ok (timeout + ((0 + readDigits 10 digits : Nat) : Int))
            rw [if_pos hle, Nat.zero_add]
        · exact Or.inl ⟨.erange, if_neg hle, by decide⟩
      | cons c ep =>
        have hc := hrest c ep rfl
        rw [parseLoop_group hdigits hc htimeout]
        by_cases hlarge : intMax < readDigits 10 digits
        · exact Or.inl ⟨.erange, if_pos hlarge, by decide⟩
        rw [if_neg hlarge]
        by_cases hmem : tolower c ∈ index
        · obtain ⟨next, hfind, hnext, hiff⟩ := findSuffix_of_mem hsorted hmem
          rw [hfind]
          dsimp only
          by_cases hsum : timeout + readDigits 10 digits * unitOf (tolower c) ≤ intMax
          · rw [if_pos hsum]
            have hproduct : (0 : Int) ≤ readDigits 10 digits * unitOf (tolower c) :=
              Int.mul_nonneg (Int.natCast_nonneg _) (Int.natCast_nonneg _)
            have hvalue : ∀ r : Reading, timeout + ((r.cons digits c).total : Int) =
                timeout + readDigits 10 digits * unitOf (tolower c) + r.total := by
              intro r
              rw [Reading.total_cons, Int.natCast_add, Int.natCast_mul, Int.add_assoc]
            by_cases hend : ep = []
            · rw [if_pos hend]
              subst hend
              have hempty : (Reading.mk [] none).InOrder next :=
                ⟨fun g hg => absurd hg List.not_mem_nil, fun ds hds => absurd hds.symm
                  (Option.some_ne_none _), fun c hc => absurd hc List.not_mem_nil, List.Pairwise.nil⟩
              refine Or.inr ⟨(Reading.mk [] none).cons digits c, ?_, hempty.cons hdigits hmem hiff,
                Or.inl (List.cons_ne_nil _ _), ?_, ?_⟩
              · rw [Reading.text_cons]
                rfl
              · rw [hvalue]
                show _ + ((0 : Nat) : Int) ≤ intMax
                omega
              · rw [hvalue]
                show _ = Except.ok (_ + ((0 : Nat) : Int))
                rw [Int.natCast_zero, Int.add_zero]
            · rw [if_neg hend]
              have hep : ∀ b ∈ ep, isalnum b = true :=
                fun b hb => hcp b (List.mem_append_right _ (List.mem_cons_of_mem _ hb))
              have hshort : ep.length < n := by
                rw [← hn, List.length_append, List.length_cons]
                omega
              rcases ih ep.length hshort hep hnext (fun b hb => hindex b ((hiff b).mp hb).1)
                ⟨by omega, hsum⟩ rfl with hfail | ⟨r, htext, horder, -, htotal, hok⟩
              · exact Or.inl hfail
              · refine Or.inr ⟨r.cons digits c, ?_, horder.cons hdigits hmem hiff,
                  Or.inl (List.cons_ne_nil _ _), ?_, ?_⟩
                · rw [Reading.text_cons, htext]
                · rw [hvalue]
                  exact htotal
                · rw [hvalue]
                  exact hok
          · exact Or.inl ⟨.erange, if_neg hsum, by decide⟩
        · rw [findSuffix_eq_none hmem]
          exact Or.inl ⟨.einval, rfl, by decide⟩

theorem Reading.InOrder.tail {digits : List Nat} {c : UInt8} {r : Reading} {index : Bytes}
    (h : (r.cons digits c).InOrder index) : r.InOrder index :=
  ⟨fun g hg => h.numbers g (List.mem_cons_of_mem _ hg), h.plain,
    fun b hb => h.letters b (List.mem_cons_of_mem _ hb), (List.pairwise_cons.mp h.order).2⟩

theorem number_unique {digits digits' : List Nat} {rest rest' : Bytes} (h : IsNumber digits)
    (h' : IsNumber digits') (hrest : ∀ c cp, rest = c :: cp → isdigit c = false)
    (hrest' : ∀ c cp, rest' = c :: cp → isdigit c = false)
    (htext : digitText digits ++ rest = digitText digits' ++ rest') :
    digits = digits' ∧ rest = rest' := by
  have hparts := parts_number h hrest
  rw [htext] at hparts
  obtain ⟨-, hdigits, hleft⟩ := hparts.unique (parts_number h' hrest')
  exact ⟨hdigits.symm, hleft.symm⟩

theorem Reading.unique {groups groups' : List (List Nat × UInt8)} {plain plain' : Option (List Nat)}
    (h : (Reading.mk groups plain).InOrder suffixes)
    (h' : (Reading.mk groups' plain').InOrder suffixes)
    (htext : (Reading.mk groups plain).text = (Reading.mk groups' plain').text) :
    groups = groups' ∧ plain = plain' := by
  have hnil : ∀ c cp, ([] : Bytes) = c :: cp → isdigit c = false :=
    fun c cp hno => absurd hno.symm (List.cons_ne_nil _ _)
  have hstop : ∀ {digits : List Nat} {c : UInt8} {r : Reading},
      (r.cons digits c).InOrder suffixes → ∀ b cp, c :: r.text = b :: cp → isdigit b = false := by
    intro digits c r hr b cp heq
    rw [← (List.cons.inj heq).1]
    exact isdigit_suffix c (hr.letters (tolower c) List.mem_cons_self)
  induction groups generalizing groups' with
  | nil =>
    cases groups' with
    | nil =>
      refine ⟨rfl, ?_⟩
      cases plain with
      | none =>
        cases plain' with
        | none => rfl
        | some digits' => exact absurd htext.symm (digitText_ne_nil (h'.plain digits' rfl))
      | some digits =>
        cases plain' with
        | none => exact absurd htext (digitText_ne_nil (h.plain digits rfl))
        | some digits' =>
          change digitText digits = digitText digits' at htext
          rw [← List.append_nil (digitText digits), ← List.append_nil (digitText digits')] at htext
          exact congrArg some
            (number_unique (h.plain digits rfl) (h'.plain digits' rfl) hnil hnil htext).1
    | cons g groups' =>
      change ((Reading.mk groups' plain').cons g.1 g.2).InOrder suffixes at h'
      change _ = ((Reading.mk groups' plain').cons g.1 g.2).text at htext
      rw [Reading.text_cons] at htext
      cases plain with
      | none => exact absurd htext.symm (List.append_ne_nil_of_right_ne_nil _ (List.cons_ne_nil _ _))
      | some digits =>
        change digitText digits = _ at htext
        rw [← List.append_nil (digitText digits)] at htext
        exact absurd (number_unique (h.plain digits rfl) (h'.numbers _ List.mem_cons_self) hnil
          (hstop h') htext).2.symm (List.cons_ne_nil _ _)
  | cons g groups ih =>
    change ((Reading.mk groups plain).cons g.1 g.2).InOrder suffixes at h
    change ((Reading.mk groups plain).cons g.1 g.2).text = _ at htext
    rw [Reading.text_cons] at htext
    have hdigits := h.numbers _ List.mem_cons_self
    cases groups' with
    | nil =>
      cases plain' with
      | none => exact absurd htext (List.append_ne_nil_of_right_ne_nil _ (List.cons_ne_nil _ _))
      | some digits' =>
        change _ = digitText digits' at htext
        rw [← List.append_nil (digitText digits')] at htext
        exact absurd (number_unique hdigits (h'.plain digits' rfl) (hstop h) hnil htext).2
          (List.cons_ne_nil _ _)
    | cons g' groups' =>
      change ((Reading.mk groups' plain').cons g'.1 g'.2).InOrder suffixes at h'
      change _ = ((Reading.mk groups' plain').cons g'.1 g'.2).text at htext
      rw [Reading.text_cons] at htext
      obtain ⟨hsame, hrest⟩ := number_unique hdigits (h'.numbers _ List.mem_cons_self) (hstop h)
        (hstop h') htext
      obtain ⟨hc, hrest⟩ := List.cons.inj hrest
      obtain ⟨hgroups, hplain⟩ := ih h.tail h'.tail hrest
      have hg : g = g' := Prod.ext hsame hc
      exact ⟨by rw [hg, hgroups], hplain⟩

/-- The call answers the seconds of the timeouts within the limit and of nothing else, and never
overflows. -/
structure Exact (timestr : Bytes) : Prop where
  value : ∀ v, parseTimeout timestr = .ok v ↔ Denotes timestr v
  defined : parseTimeout timestr ≠ .error .undefined

/-- The string can be read with a suffix or with plain seconds where they have been before. -/
def Repeats (timestr : Bytes) : Prop :=
  ∃ r : Reading, r.text = timestr ∧ r.InOrder suffixes ∧ r.Nonempty ∧ (r.total : Int) ≤ intMax ∧
    ¬ r.Once

theorem parseTimeout_text {r : Reading} (horder : r.InOrder suffixes) (hne : r.Nonempty)
    (htotal : (r.total : Int) ≤ intMax) : parseTimeout r.text = .ok (r.total : Int) := by
  obtain ⟨groups, plain⟩ := r
  have hcomplete := parseLoop_complete groups plain (show suffixes.Pairwise (· < ·) by decide) (fun _ hc => hc)
    horder hne (show (0 : Int) ≤ 0 ∧ 0 ≤ intMax by decide) (by rw [Int.zero_add]; exact htotal)
  rw [Int.zero_add] at hcomplete
  exact hcomplete

theorem once_of_denotes {r : Reading} {v : Int} (horder : r.InOrder suffixes)
    (h : Denotes r.text v) : r.Once := by
  obtain ⟨r', htext, horder', -, honce, -⟩ := h
  obtain ⟨hgroups, hplain⟩ := Reading.unique horder horder' htext.symm
  have hsame : r = r' := by
    cases r
    cases r'
    exact congrArg₂ Reading.mk hgroups hplain
  exact hsame ▸ honce

theorem parseTimeout_iff {timestr : Bytes} (h : ∀ c ∈ timestr, isalnum c = true) :
    Exact timestr ↔ ¬ Repeats timestr := by
  have hsorted : suffixes.Pairwise (· < ·) := by decide
  have hzero : (0 : Int) ≤ 0 ∧ 0 ≤ intMax := by decide
  constructor
  · rintro ⟨hvalue, -⟩ ⟨r, rfl, horder, hne, htotal, hrepeats⟩
    exact hrepeats (once_of_denotes horder ((hvalue _).mp (parseTimeout_text horder hne htotal)))
  · intro hno
    have hdenotes : ∀ v, Denotes timestr v → parseTimeout timestr = .ok v := by
      rintro v ⟨r, rfl, horder, hne, -, rfl, hmax⟩
      exact parseTimeout_text horder hne hmax
    rcases parseLoop_sound h hsorted (fun _ hc => hc) hzero with ⟨e, hfail, hdefined⟩ |
      ⟨r, rfl, horder, hne, htotal, hok⟩
    · refine ⟨fun v => ⟨fun hv => ?_, hdenotes v⟩, fun hundefined => ?_⟩
      · exact absurd (hfail.symm.trans hv) nofun
      · exact hdefined (Except.error.inj (hfail.symm.trans hundefined))
    · rw [Int.zero_add] at htotal hok
      refine ⟨fun v => ⟨fun hv => ?_, hdenotes v⟩, fun hundefined => ?_⟩
      · obtain rfl : (r.total : Int) = v := Except.ok.inj (hok.symm.trans hv)
        refine ⟨r, rfl, horder, hne, ?_, rfl, htotal⟩
        by_contra honce
        exact hno ⟨r, rfl, horder, hne, htotal, honce⟩
      · exact absurd (hok.symm.trans hundefined) nofun

/-- Two hours: `2h`. -/
theorem exact_two_hours : Exact [50, 104] := by
  have halnum : ∀ c ∈ ([50, 104] : Bytes), isalnum c = true :=
    List.forall_mem_cons.mpr ⟨rfl, List.forall_mem_singleton.mpr rfl⟩
  refine (parseTimeout_iff halnum).mpr ?_
  rintro ⟨⟨groups, plain⟩, htext, horder, -, -, hrepeats⟩
  have hours : (Reading.mk [([2], 104)] none).InOrder suffixes :=
    ⟨List.forall_mem_singleton.mpr ⟨by decide, by decide⟩, nofun,
      List.forall_mem_singleton.mpr (by decide), by decide⟩
  obtain ⟨rfl, rfl⟩ := Reading.unique horder hours htext
  exact hrepeats ⟨by decide, fun h => absurd rfl h⟩

/-- A day and a day: `1d1d`. -/
theorem not_exact_days : ¬ Exact [49, 100, 49, 100] := by
  rintro ⟨hvalue, -⟩
  have hday : IsNumber [1] := ⟨by decide, by decide⟩
  have hdays : (Reading.mk [([1], 100), ([1], 100)] none).InOrder suffixes :=
    ⟨List.forall_mem_cons.mpr ⟨hday, List.forall_mem_singleton.mpr hday⟩, nofun,
      List.forall_mem_cons.mpr ⟨by decide, List.forall_mem_singleton.mpr (by decide)⟩, by decide⟩
  have hread := parseTimeout_text hdays (Or.inl (List.cons_ne_nil _ _)) (by decide)
  obtain ⟨honce, -⟩ := once_of_denotes hdays ((hvalue _).mp hread)
  exact absurd honce (by decide)

end NextBSD.Sudoers.Timeout
