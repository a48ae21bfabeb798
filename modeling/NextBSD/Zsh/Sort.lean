import NextBSD.Library.Compare
import NextBSD.Zsh.Number

/-!
# sort.c: comparing strings

`eltpcmp` compares two elements of an array under three settings.  A string is
its bytes without the terminator, and what reads past them reads the terminator.
In the C locale `strcoll` is `strcmp`.
-/

namespace NextBSD.Zsh

/-- `sortnumeric`: 0, 1 or -1. -/
inductive SortNumeric where
  | off
  | unsigned
  | signed
  deriving DecidableEq, Repr

structure SortSettings where
  backwards : Bool
  nobslash : Bool
  numeric : SortNumeric
  deriving DecidableEq, Repr

def SortSettings.sortdir (S : SortSettings) : Int := if S.backwards then -1 else 1

def SORTIT_NUMERICALLY : Nat := 2

def SORTIT_NUMERICALLY_SIGNED : Nat := 4

def SORTIT_BACKWARDS : Nat := 8

def SORTIT_IGNORING_BACKSLASHES : Nat := 16

def sortnumeric (sortflags : Nat) : SortNumeric :=
  if sortflags &&& SORTIT_NUMERICALLY_SIGNED ≠ 0 then .signed
  else if sortflags &&& SORTIT_NUMERICALLY ≠ 0 then .unsigned
  else .off

/-- `len` is -1 where no length is recorded. -/
structure SortElt where
  cmp : Bytes
  recorded : Bool
  deriving DecidableEq, Repr

def SortElt.len (e : SortElt) : Int := if e.recorded then e.cmp.length else -1

structure SortPtr where
  back : Bytes
  rest : Bytes
  deriving DecidableEq, Repr

def SortPtr.deref (p : SortPtr) : UInt8 := p.rest.headD 0

def SortPtr.next (p : SortPtr) : SortPtr :=
  match p.rest with
  | [] => p
  | c :: s => { back := c :: p.back, rest := s }

def SortPtr.prev (p : SortPtr) : SortPtr :=
  match p.back with
  | [] => p
  | c :: s => { back := s, rest := c :: p.rest }

/-- The string with the pointer behind its first `n` bytes. -/
def ptrAt (s : Bytes) (n : Nat) : SortPtr := { back := (s.take n).reverse, rest := s.drop n }

@[grind =]
def strcoll : Bytes → Bytes → Int
  | c :: as, d :: bs => if c = d ∧ c ≠ 0 then strcoll as bs else (c.toNat : Int) - d.toNat
  | as, bs => ((as.headD 0).toNat : Int) - (bs.headD 0).toNat

/-- The loop over two strings at least one of which has a recorded length: behind the last
character that is null in both, and whether the loop ends on equal characters. -/
@[grind =]
def nullLoop (both : Bool) : Nat → Nat → Nat → Bytes → Bytes → Nat × Bool
  | len, pos, laststart, as, bs =>
    if as.headD 0 ≠ bs.headD 0 then (laststart, false)
    else
      match len with
      | 0 => (laststart, true)
      | len + 1 =>
        if as.headD 0 = 0 then
          if both then nullLoop both len (pos + 1) (pos + 1) as.tail bs.tail else (laststart, true)
        else nullLoop both len (pos + 1) laststart as.tail bs.tail

@[grind =]
def skipBackslashes : Bytes → Bytes → SortPtr → SortPtr × SortPtr
  | back, [], bs => ({ back := back, rest := [] }, bs)
  | back, c :: s, bs =>
    if c = 0 ∨ bs.deref = 0 then ({ back := back, rest := c :: s }, bs)
    else
      let bs := if bs.deref = 92 then bs.next else bs
      if c = 92 then
        match s with
        | [] => ({ back := 92 :: back, rest := [] }, bs)
        | d :: s =>
          if d ≠ bs.deref ∨ d = 0 then ({ back := 92 :: back, rest := d :: s }, bs)
          else skipBackslashes (d :: 92 :: back) s bs.next
      else if c ≠ bs.deref then ({ back := back, rest := c :: s }, bs)
      else skipBackslashes (c :: back) s bs.next

@[grind =]
def skipCommon : Bytes → Bytes → Bytes → Bytes → SortPtr × SortPtr
  | aback, c :: as, bback, d :: bs =>
    if c = d ∧ c ≠ 0 then skipCommon (c :: aback) as (d :: bback) bs
    else ({ back := aback, rest := c :: as }, { back := bback, rest := d :: bs })
  | aback, as, bback, bs => ({ back := aback, rest := as }, { back := bback, rest := bs })

@[grind =]
def backUp : Bytes → Bytes → SortPtr → SortPtr × SortPtr
  | [], as, bs => ({ back := [], rest := as }, bs)
  | c :: back, as, bs =>
    if idigit c then backUp back (c :: as) bs.prev else ({ back := c :: back, rest := as }, bs)

@[grind =]
def skipCommonDigits : Bytes → Bytes → Bytes × Bytes
  | c :: as, d :: bs => if idigit c ∧ c = d then skipCommonDigits as bs else (c :: as, d :: bs)
  | as, bs => (as, bs)

@[grind =]
def skipBothDigits : Bytes → Bytes → Bytes × Bytes
  | c :: as, d :: bs => if idigit c ∧ idigit d then skipBothDigits as bs else (c :: as, d :: bs)
  | as, bs => (as, bs)

def startsDigit (s : Bytes) : Bool := idigit (s.headD 0)

/-- Two runs of digits, with `cmp` for runs of one value. -/
def compareRuns (mul cmp : Int) (as bs : Bytes) : Int :=
  let (as, bs) := skipCommonDigits (as.dropWhile (· = 48)) (bs.dropWhile (· = 48))
  if startsDigit as || startsDigit bs then
    let (as', bs') := skipBothDigits as bs
    if startsDigit as' && !startsDigit bs' then mul
    else if startsDigit bs' && !startsDigit as' then -mul
    else mul * (((as.headD 0).toNat : Int) - (bs.headD 0).toNat)
  else cmp

/-- The numeric comparison from where the strings differ, `cmp` being that of the characters. -/
def compareNumeric (signed : Bool) (cmp : Int) (as bs : SortPtr) : Int :=
  if signed = true ∧ as.deref = 45 ∧ startsDigit as.rest.tail ∧ startsDigit bs.rest then -1
  else if signed = true ∧ bs.deref = 45 ∧ startsDigit bs.rest.tail ∧ startsDigit as.rest then 1
  else if startsDigit as.rest || startsDigit bs.rest then
    let (as, bs) := backUp as.back as.rest bs
    let mul := if signed = true ∧ as.back.head? = some 45 then -1 else 1
    if startsDigit as.rest && startsDigit bs.rest then compareRuns mul cmp as.rest bs.rest
    else cmp
  else cmp

def compareFrom (S : SortSettings) (as bs : SortPtr) : Int :=
  let (as, bs) := if S.nobslash then skipBackslashes as.back as.rest bs else (as, bs)
  let cmp := strcoll as.rest bs.rest
  if S.numeric = .off then S.sortdir * cmp
  else
    let (as, bs) := skipCommon as.back as.rest bs.back bs.rest
    S.sortdir * compareNumeric (S.numeric = .signed) cmp as bs

def recordedLen (a b : SortElt) : Nat :=
  if a.recorded then
    if b.recorded ∧ b.cmp.length < a.cmp.length then b.cmp.length else a.cmp.length
  else b.cmp.length

def eltpcmp (S : SortSettings) (a b : SortElt) : Int :=
  if a.recorded || b.recorded then
    let (laststart, agree) := nullLoop (a.recorded && b.recorded) (recordedLen a b) 0 0 a.cmp b.cmp
    if agree = true ∧ a.len ≠ b.len then
      if a.recorded then if b.recorded then (a.len - b.len) * S.sortdir else S.sortdir
      else -S.sortdir
    else compareFrom S (ptrAt a.cmp laststart) (ptrAt b.cmp laststart)
  else compareFrom S (ptrAt a.cmp 0) (ptrAt b.cmp 0)

def sortString (s : Bytes) : SortElt := { cmp := s, recorded := false }

def zstrcmpSettings (sortflags : Nat) : SortSettings :=
  { backwards := false
    nobslash := sortflags &&& SORTIT_IGNORING_BACKSLASHES ≠ 0
    numeric := sortnumeric sortflags }

def zstrcmp (as bs : Bytes) (sortflags : Nat) : Int :=
  eltpcmp (zstrcmpSettings sortflags) (sortString as) (sortString bs)

/-- What `strmetasort` sets before it sorts.  It has stripped the backslashes by then, and
`sortnobslash` is left alone. -/
def strmetasortSettings (sortwhat : Nat) : SortSettings :=
  { backwards := sortwhat &&& SORTIT_BACKWARDS ≠ 0
    nobslash := false
    numeric := sortnumeric sortwhat }

end NextBSD.Zsh

/-!
## sort.c: runs of digits

What counts of a run of digits is what it has behind its zeros.  Two runs are compared first by how
many digits count and then by these.
-/

namespace NextBSD.Zsh

open Digits Compare

theorem sign_sub (m n : Nat) : ((m : Int) - n).sign = toInt (compare m n) := by
  rcases Nat.lt_trichotomy m n with h | h | h
  · rw [Nat.compare_eq_lt.mpr h, Int.sign_eq_neg_one_of_neg (by omega)]
    rfl
  · rw [Nat.compare_eq_eq.mpr h, h, Int.sub_self]
    rfl
  · rw [Nat.compare_eq_gt.mpr h, Int.sign_eq_one_of_pos (by omega)]
    rfl

theorem compare_congr {m n m' n' : Nat} (hlt : m < n ↔ m' < n') (hgt : n < m ↔ n' < m') :
    compare m n = compare m' n' := by
  rw [Nat.compare_eq_ite_lt, Nat.compare_eq_ite_lt]
  simp only [hlt, hgt]

/-! ## Runs of digits -/

theorem digitValue_of_idigit {c : UInt8} (h : idigit c = true) : digitValue c = c.toNat - 48 := by
  have hle : c ≤ 57 := UInt8.le_iff_toNat_le.mpr ((idigit_iff c).mp h).2
  rw [digitValue, if_pos hle]

def significant (run : Bytes) : Bytes := run.dropWhile (· = 48)

def AllDigits (run : Bytes) : Prop := ∀ c ∈ run, idigit c = true

theorem allDigits_cons {c : UInt8} {run : Bytes} :
    AllDigits (c :: run) ↔ idigit c = true ∧ AllDigits run := List.forall_mem_cons

theorem allDigits_takeWhile (s : Bytes) : AllDigits (s.takeWhile idigit) :=
  fun _ hc => List.mem_takeWhile_imp hc

theorem AllDigits.significant {run : Bytes} (h : AllDigits run) : AllDigits (significant run) :=
  fun c hc => h c ((List.dropWhile_suffix _).subset hc)

theorem digitValue_lt {run : Bytes} (h : AllDigits run) : ∀ d ∈ run.map digitValue, d < 10 := by
  intro d hd
  obtain ⟨c, hc, rfl⟩ := List.mem_map.mp hd
  have := (idigit_iff c).mp (h c hc)
  rw [digitValue_of_idigit (h c hc)]
  omega

theorem compare_digitValue {c d : UInt8} (hc : idigit c = true) (hd : idigit d = true) :
    compare c.toNat d.toNat = compare (digitValue c) (digitValue d) := by
  rw [digitValue_of_idigit hc, digitValue_of_idigit hd]
  rw [idigit_iff] at hc hd
  exact compare_congr (by omega) (by omega)

theorem digitValue_injOn {as bs : Bytes} (ha : AllDigits as) (hb : AllDigits bs)
    (h : as.map digitValue = bs.map digitValue) : as = bs := by
  induction as generalizing bs with
  | nil =>
    cases bs with
    | nil => rfl
    | cons b bs => simp at h
  | cons a as ih =>
    cases bs with
    | nil => simp at h
    | cons b bs =>
      rw [List.map_cons, List.map_cons, List.cons.injEq] at h
      obtain ⟨ha0, ha⟩ := allDigits_cons.mp ha
      obtain ⟨hb0, hb⟩ := allDigits_cons.mp hb
      have hab : a.toNat = b.toNat := by
        have h0 := h.1
        rw [digitValue_of_idigit ha0, digitValue_of_idigit hb0] at h0
        rw [idigit_iff] at ha0 hb0
        omega
      rw [UInt8.toNat_inj.mp hab, ih ha hb h.2]

def runCompare (as bs : Bytes) : Ordering :=
  (compare (significant as).length (significant bs).length).then
    (compare ((significant as).map digitValue) ((significant bs).map digitValue))

theorem startsDigit_append_of_pos {run s : Bytes} (hrun : AllDigits run)
    (hs : startsDigit s = false) : startsDigit (run ++ s) = decide (0 < run.length) := by
  cases run with
  | nil => simpa using hs
  | cons c run => simpa [startsDigit] using hrun c List.mem_cons_self

theorem startsDigit_dropWhile (s : Bytes) : startsDigit (s.dropWhile idigit) = false := by
  unfold startsDigit
  cases h : s.dropWhile idigit with
  | nil => rfl
  | cons c t =>
    have := List.head?_dropWhile_not idigit s
    rw [h] at this
    simpa using this

theorem skipCommonDigits_spec {as bs ra rb : Bytes} (ha : AllDigits as) (hb : AllDigits bs)
    (hra : startsDigit ra = false) (hrb : startsDigit rb = false) :
    ∃ w as' bs' : Bytes, as = w ++ as' ∧ bs = w ++ bs' ∧
      skipCommonDigits (as ++ ra) (bs ++ rb) = (as' ++ ra, bs' ++ rb) ∧
      ∀ c d s t, as' = c :: s → bs' = d :: t → c ≠ d := by
  induction as generalizing bs with
  | nil =>
    refine ⟨[], [], bs, rfl, rfl, ?_, fun c d s t h => nomatch h⟩
    cases ra with
    | nil => rfl
    | cons c ra =>
      cases hbs : bs ++ rb with
      | nil => rfl
      | cons d s =>
        have hc : idigit c = false := hra
        simp [skipCommonDigits, hc]
  | cons c as ih =>
    obtain ⟨hc, ha⟩ := allDigits_cons.mp ha
    cases bs with
    | nil =>
      refine ⟨[], c :: as, [], rfl, rfl, ?_, fun c d s t _ h => nomatch h⟩
      cases rb with
      | nil => rfl
      | cons d rb =>
        have hcd : c ≠ d := by
          rintro rfl
          exact Bool.false_ne_true (hrb.symm.trans hc)
        simp [skipCommonDigits, hcd]
    | cons d bs =>
      obtain ⟨hd, hb'⟩ := allDigits_cons.mp hb
      by_cases hcd : c = d
      · subst hcd
        obtain ⟨w, as', bs', has, hbs, heq, hne⟩ := ih ha hb'
        refine ⟨c :: w, as', bs', congrArg _ has, congrArg _ hbs, ?_, hne⟩
        simpa [skipCommonDigits, hc] using heq
      · refine ⟨[], c :: as, d :: bs, rfl, rfl, ?_, ?_⟩
        · simp [skipCommonDigits, hcd]
        · intro c' d' s t has hbs
          rw [List.cons.injEq] at has hbs
          rw [← has.1, ← hbs.1]
          exact hcd

theorem skipBothDigits_spec {as bs ra rb : Bytes} (ha : AllDigits as) (hb : AllDigits bs)
    (hra : startsDigit ra = false) (hrb : startsDigit rb = false) :
    startsDigit (skipBothDigits (as ++ ra) (bs ++ rb)).1 = decide (bs.length < as.length) ∧
      startsDigit (skipBothDigits (as ++ ra) (bs ++ rb)).2 = decide (as.length < bs.length) := by
  induction as generalizing bs with
  | nil =>
    have heq : skipBothDigits ([] ++ ra) (bs ++ rb) = (ra, bs ++ rb) := by
      cases ra with
      | nil => rfl
      | cons c ra =>
        have hc : idigit c = false := hra
        cases hbs : bs ++ rb with
        | nil => rfl
        | cons d s => simp [skipBothDigits, hc]
    rw [heq, hra, startsDigit_append_of_pos hb hrb]
    simp
  | cons c as ih =>
    obtain ⟨hc, ha'⟩ := allDigits_cons.mp ha
    cases bs with
    | nil =>
      have heq : skipBothDigits (c :: as ++ ra) ([] ++ rb) = (c :: as ++ ra, rb) := by
        cases rb with
        | nil => rfl
        | cons d rb =>
          have hd : idigit d = false := hrb
          simp [skipBothDigits, hd]
      rw [heq, hrb, startsDigit_append_of_pos ha hra]
      simp
    | cons d bs =>
      obtain ⟨hd, hb'⟩ := allDigits_cons.mp hb
      have heq : skipBothDigits (c :: as ++ ra) (d :: bs ++ rb) =
          skipBothDigits (as ++ ra) (bs ++ rb) := by simp [skipBothDigits, hc, hd]
      rw [heq]
      simpa using ih ha' hb'

theorem dropWhile_zeros (s : Bytes) :
    s.dropWhile (· = 48) = significant (s.takeWhile idigit) ++ s.dropWhile idigit := by
  conv_lhs => rw [← List.takeWhile_append_dropWhile (p := idigit) (l := s)]
  rw [List.dropWhile_append]
  have hrest : (s.dropWhile idigit).dropWhile (· = 48) = s.dropWhile idigit := by
    have hs := startsDigit_dropWhile s
    cases h : s.dropWhile idigit with
    | nil => rfl
    | cons c t =>
      have hc : c ≠ 48 := by
        rintro rfl
        rw [h] at hs
        exact Bool.noConfusion hs
      rw [List.dropWhile_cons_of_neg (by simpa using hc)]
  unfold significant
  split
  · next h => rw [hrest, List.isEmpty_iff.mp h, List.nil_append]
  · rfl

theorem sign_compareRuns {cmp : Int} {o : Ordering} (hcmp : cmp.sign = toInt o) (as bs : Bytes) :
    (compareRuns 1 cmp as bs).sign =
      toInt ((runCompare (as.takeWhile idigit) (bs.takeWhile idigit)).then o) := by
  have hra := startsDigit_dropWhile as
  have hrb := startsDigit_dropWhile bs
  have hda := (allDigits_takeWhile as).significant
  have hdb := (allDigits_takeWhile bs).significant
  obtain ⟨w, as', bs', ha, hb, heq, hne⟩ := skipCommonDigits_spec hda hdb hra hrb
  unfold compareRuns runCompare
  rw [dropWhile_zeros as, dropWhile_zeros bs, heq]
  rw [ha] at hda ⊢
  rw [hb] at hdb ⊢
  have hda' : AllDigits as' := fun c hc => hda c (List.mem_append_right w hc)
  have hdb' : AllDigits bs' := fun c hc => hdb c (List.mem_append_right w hc)
  obtain ⟨hfirst, hsecond⟩ := skipBothDigits_spec hda' hdb' hra hrb
  simp only [startsDigit_append_of_pos hda' hra, startsDigit_append_of_pos hdb' hrb, hfirst,
    hsecond, List.length_append, List.map_append, compare_append_left]
  rcases Nat.lt_trichotomy as'.length bs'.length with hlen | hlen | hlen
  · rw [Nat.compare_eq_lt.mpr (Nat.add_lt_add_left hlen _)]
    have hpos : 0 < bs'.length := by omega
    simp [hlen, hpos, Nat.lt_asymm hlen, toInt]
  · rw [Nat.compare_eq_eq.mpr (by rw [hlen]), hlen]
    cases as' with
    | nil =>
      rw [List.length_eq_zero_iff.mp hlen.symm]
      simpa using hcmp
    | cons c s =>
      cases bs' with
      | nil => simp at hlen
      | cons d t =>
        have hcd := hne c d s t rfl rfl
        have hcomp := compare_digitValue (allDigits_cons.mp hda').1 (allDigits_cons.mp hdb').1
        have hneq : compare c.toNat d.toNat ≠ .eq := fun h =>
          hcd (UInt8.toNat_inj.mp (Nat.compare_eq_eq.mp h))
        rw [hcomp] at hneq
        simp [sign_sub, hcomp, then_of_ne hneq]
  · rw [Nat.compare_eq_gt.mpr (Nat.add_lt_add_left hlen _)]
    have hpos : 0 < as'.length := by omega
    simp [hlen, hpos, Nat.lt_asymm hlen, toInt]

end NextBSD.Zsh
