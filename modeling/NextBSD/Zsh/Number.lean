import NextBSD.Zsh.HistFile

/-!
# utils.c: reading integers

`zulong` has 64 bits; its arithmetic is that of the numbers modulo `2 ^ 64`.  Negating the lowest
`zlong` gives that number again.
-/

namespace NextBSD.Zsh

open Digits

def zulong (n : Nat) : Nat := n % 2 ^ 64

def zlong (n : Int) : Int := (n + 2 ^ 63) % 2 ^ 64 - 2 ^ 63

/-- `IS_DASH`: a minus, or the token for it. -/
def isDash (c : UInt8) : Bool := c = 45 || c = 0x9b

def idigit (c : UInt8) : Bool := 48 ≤ c && c ≤ 57

theorem idigit_iff (c : UInt8) : idigit c = true ↔ 48 ≤ c.toNat ∧ c.toNat ≤ 57 := by
  unfold idigit
  rw [Bool.and_eq_true, decide_eq_true_iff, decide_eq_true_iff, UInt8.le_iff_toNat_le,
    UInt8.le_iff_toNat_le]
  rfl

def zdigit (base : Nat) (c : UInt8) : Option Nat :=
  if base ≤ 10 then
    if 48 ≤ c.toNat ∧ c.toNat < 48 + base then some (c.toNat - 48) else none
  else if idigit c then some (c.toNat - 48)
  else if (97 ≤ c.toNat ∧ c.toNat < 97 + base - 10) ∨ (65 ≤ c.toNat ∧ c.toNat < 65 + base - 10) then
    some ((c.toNat &&& 0x1f) + 9)
  else none

def skipSign (s : Bytes) : Bool × Bytes :=
  if s.head?.any isDash then (true, s.tail)
  else if s.head? = some 43 then (false, s.tail)
  else (false, s)

def skipBase (octal : Nat) (s : Bytes) : Nat × Bytes :=
  if s.head? = some 48 then
    if s.tail.head? = some 120 ∨ s.tail.head? = some 88 then (16, s.tail.tail)
    else if s.tail.head? = some 98 ∨ s.tail.head? = some 66 then (2, s.tail.tail)
    else (octal, s.tail)
  else (10, s)

/-- Where a loop ends: the number, the offset at which it was cut, the offset, and the rest. -/
structure Scan where
  number : Nat
  trunc : Option Nat
  offset : Nat
  rest : Bytes
  deriving DecidableEq, Repr

def digitLoop (underscore : Bool) (base number : Nat) (trunc : Option Nat) (offset : Nat) :
    Bytes → Scan
  | [] => { number := number, trunc := trunc, offset := offset, rest := [] }
  | c :: s =>
    if underscore = true ∧ c = 95 then digitLoop underscore base number trunc (offset + 1) s
    else
      match zdigit base c with
      | none => { number := number, trunc := trunc, offset := offset, rest := c :: s }
      | some d =>
        if trunc.isSome then digitLoop underscore base number trunc (offset + 1) s
        else if zulong (number * base + d) < number then
          digitLoop underscore base number (some offset) (offset + 1) s
        else digitLoop underscore base (zulong (number * base + d)) none (offset + 1) s

inductive Message where
  | invalidBase (base : Int)
  | truncated (digits : Nat) (text : Bytes)
  deriving DecidableEq, Repr

def Message.format : Message → String
  | .invalidBase _ => "invalid base (must be 2 to 36 inclusive): %d"
  | .truncated _ _ => "number truncated after %d digits: %s"

/-- The number, what was reported, and what `*t` is set to, if it is. -/
structure Answer where
  value : Int
  message : Option Message
  endp : Option Bytes
  deriving DecidableEq, Repr

def repairSign (neg : Bool) (base : Nat) (scan : Scan) : Scan :=
  if scan.trunc = none ∧ zlong scan.number < 0 ∧ (neg = false ∨ scan.number % 2 ^ 63 ≠ 0) then
    { scan with number := scan.number / base, trunc := some (scan.offset - 1) }
  else scan

def zstrtolUnderscore (s : Bytes) (base : Int) (underscore : Bool) : Answer :=
  let (neg, s) := skipSign (s.dropWhile inblank)
  let (base, s) := if base = 0 then (((skipBase 8 s).1 : Int), (skipBase 8 s).2) else (base, s)
  if base < 2 ∨ 36 < base then
    { value := 0, message := some (.invalidBase base), endp := none }
  else
    let scan := repairSign neg base.toNat (digitLoop underscore base.toNat 0 none 0 s)
    { value := if neg then zlong (-zlong scan.number) else zlong scan.number
      message := scan.trunc.map fun digits => .truncated digits s
      endp := some scan.rest }

/-- The loops of `zstrtoul_underscore`: `none` is a number that is too large. -/
def unsignedLoop (base number : Nat) : Bytes → Option (Nat × Bytes)
  | [] => some (number, [])
  | c :: s =>
    if c = 95 then unsignedLoop base number s
    else
      match zdigit base c with
      | none => some (number, c :: s)
      | some d =>
        if zulong (number * base + d) < number then none
        else unsignedLoop base (zulong (number * base + d)) s

/-- What `*retval` is set to when 1 is returned. -/
def zstrtoulUnderscore (octalZeroes : Bool) (s : Bytes) : Option Nat :=
  let s := if s.head? = some 43 then s.tail else s
  let (base, s) := skipBase (if octalZeroes then 8 else 10) s
  match unsignedLoop base 0 s with
  | some (number, []) => some number
  | _ => none

def SignText (neg : Bool) (sign : Bytes) : Prop :=
  (neg = true ∧ (sign = [45] ∨ sign = [0x9b])) ∨ (neg = false ∧ (sign = [] ∨ sign = [43]))

def BaseText (octal base : Nat) (front text : Bytes) : Prop :=
  (base = 10 ∧ front = [] ∧ text.head? ≠ some 48) ∨
  (base = 16 ∧ (front = [48, 120] ∨ front = [48, 88])) ∨
  (base = 2 ∧ (front = [48, 98] ∨ front = [48, 66])) ∨
  (base = octal ∧ front = [48] ∧
    ∀ c, text.head? = some c → c ≠ 120 ∧ c ≠ 88 ∧ c ≠ 98 ∧ c ≠ 66)

def InRun (underscore : Bool) (base : Nat) (c : UInt8) : Prop :=
  (zdigit base c).isSome = true ∨ (underscore = true ∧ c = 95)

instance (underscore : Bool) (base : Nat) (c : UInt8) : Decidable (InRun underscore base c) :=
  inferInstanceAs (Decidable (_ ∨ _))

/-- The base of the number: the one that is asked for, or the one that a prefix tells. -/
def BasePart (asked : Int) (base : Nat) (front text : Bytes) : Prop :=
  (asked = 0 ∧ BaseText 8 base front text) ∨ (asked ≠ 0 ∧ asked = base ∧ front = [])

/-- The string is blanks, a sign, a prefix for the base, the longest run of digits and a rest. -/
def Parts (s : Bytes) (asked : Int) (underscore neg : Bool) (base : Nat) (run rest : Bytes) :
    Prop :=
  ∃ blanks sign front, s = blanks ++ (sign ++ (front ++ (run ++ rest))) ∧
    (∀ c ∈ blanks, inblank c = true) ∧ SignText neg sign ∧
    (sign = [] → ∀ c, (front ++ (run ++ rest)).head? = some c →
      inblank c = false ∧ isDash c = false ∧ c ≠ 43) ∧
    BasePart asked base front (run ++ rest) ∧
    (∀ c ∈ run, InRun underscore base c) ∧ ∀ c, rest.head? = some c → ¬ InRun underscore base c

def digitsOf (base : Nat) (run : Bytes) : List Nat := run.filterMap (zdigit base)

def denoted (neg : Bool) (n : Nat) : Int := if neg then -(n : Int) else n

def Fits (neg : Bool) (n : Nat) : Prop := -2 ^ 63 ≤ denoted neg n ∧ denoted neg n < 2 ^ 63

def OfPrefix (neg : Bool) (base : Nat) (digits : List Nat) (n : Nat) : Prop :=
  ∃ front, front <+: digits ∧ front ≠ digits ∧ Fits neg (readDigits base front) ∧
    n = readDigits base front

/-- `zstrtol_underscore` reads a string as it should. -/
def ReadsExactly (s : Bytes) (asked : Int) (underscore : Bool) : Prop :=
  ∃ neg base run rest, Parts s asked underscore neg base run rest ∧
    (zstrtolUnderscore s asked underscore).endp = some rest ∧
    (Fits neg (readDigits base (digitsOf base run)) →
      (zstrtolUnderscore s asked underscore).value =
          denoted neg (readDigits base (digitsOf base run)) ∧
        (zstrtolUnderscore s asked underscore).message = none) ∧
    (¬ Fits neg (readDigits base (digitsOf base run)) →
      (∃ count text, (zstrtolUnderscore s asked underscore).message =
          some (.truncated count text)) ∧
        ∃ n, OfPrefix neg base (digitsOf base run) n ∧
          (zstrtolUnderscore s asked underscore).value = denoted neg n)

/-! ## The scan -/

theorem head?_eq_some_cons {s : Bytes} {c : UInt8} (h : s.head? = some c) : s = c :: s.tail := by
  obtain ⟨t, rfl⟩ := List.head?_eq_some_iff.mp h
  rfl

theorem skipBase_eq_iff {octal base : Nat} {s text : Bytes} :
    skipBase octal s = (base, text) ↔
      ∃ front, s = front ++ text ∧ BaseText octal base front text := by
  constructor
  · intro h
    unfold skipBase at h
    by_cases hzero : s.head? = some 48
    · rw [if_pos hzero] at h
      have hs := head?_eq_some_cons hzero
      generalize s.tail = t at h hs
      subst hs
      by_cases hx : t.head? = some 120 ∨ t.head? = some 88
      · rw [if_pos hx] at h
        obtain ⟨rfl, rfl⟩ := Prod.mk.inj h
        rcases hx with hx | hx
        · refine ⟨[48, 120], ?_, Or.inr (Or.inl ⟨rfl, Or.inl rfl⟩)⟩
          rw [head?_eq_some_cons hx]
          rfl
        · refine ⟨[48, 88], ?_, Or.inr (Or.inl ⟨rfl, Or.inr rfl⟩)⟩
          rw [head?_eq_some_cons hx]
          rfl
      · rw [if_neg hx] at h
        by_cases hb : t.head? = some 98 ∨ t.head? = some 66
        · rw [if_pos hb] at h
          obtain ⟨rfl, rfl⟩ := Prod.mk.inj h
          rcases hb with hb | hb
          · refine ⟨[48, 98], ?_, Or.inr (Or.inr (Or.inl ⟨rfl, Or.inl rfl⟩))⟩
            rw [head?_eq_some_cons hb]
            rfl
          · refine ⟨[48, 66], ?_, Or.inr (Or.inr (Or.inl ⟨rfl, Or.inr rfl⟩))⟩
            rw [head?_eq_some_cons hb]
            rfl
        · rw [if_neg hb] at h
          obtain ⟨rfl, rfl⟩ := Prod.mk.inj h
          refine ⟨[48], rfl, Or.inr (Or.inr (Or.inr ⟨rfl, rfl, fun c hc => ?_⟩))⟩
          refine ⟨?_, ?_, ?_, ?_⟩ <;> rintro rfl
          · exact hx (Or.inl hc)
          · exact hx (Or.inr hc)
          · exact hb (Or.inl hc)
          · exact hb (Or.inr hc)
    · rw [if_neg hzero] at h
      obtain ⟨rfl, rfl⟩ := Prod.mk.inj h
      exact ⟨[], rfl, Or.inl ⟨rfl, rfl, hzero⟩⟩
  · rintro ⟨front, rfl, hfront⟩
    rcases hfront with ⟨rfl, rfl, hzero⟩ | ⟨rfl, rfl | rfl⟩ | ⟨rfl, rfl | rfl⟩ | ⟨rfl, rfl, hnot⟩
    · unfold skipBase
      rw [List.nil_append, if_neg hzero]
    · rfl
    · rfl
    · rfl
    · rfl
    · unfold skipBase
      show (if some (48 : UInt8) = some 48 then _ else _) = _
      rw [if_pos rfl]
      show (if text.head? = some 120 ∨ text.head? = some 88 then _ else _) = _
      rw [if_neg fun h => h.elim (fun h => (hnot _ h).1 rfl) fun h => (hnot _ h).2.1 rfl]
      show (if text.head? = some 98 ∨ text.head? = some 66 then _ else _) = _
      rw [if_neg fun h => h.elim (fun h => (hnot _ h).2.2.1 rfl) fun h => (hnot _ h).2.2.2 rfl]
      rfl

theorem skipSign_eq_iff {s text : Bytes} {neg : Bool} :
    skipSign (s.dropWhile inblank) = (neg, text) ↔
      ∃ blanks sign, s = blanks ++ (sign ++ text) ∧ (∀ c ∈ blanks, inblank c = true) ∧
        SignText neg sign ∧ (sign = [] → ∀ c, text.head? = some c →
          inblank c = false ∧ isDash c = false ∧ c ≠ 43) := by
  constructor
  · intro h
    have hspan := (List.takeWhile_append_dropWhile (p := inblank) (l := s)).symm
    have hblanks : ∀ c ∈ s.takeWhile inblank, inblank c = true :=
      fun c hc => List.mem_takeWhile_imp hc
    have hstop : ∀ c, (s.dropWhile inblank).head? = some c → inblank c = false := by
      intro c hc
      have hnot := List.head?_dropWhile_not inblank s
      rw [hc] at hnot
      exact hnot
    generalize s.takeWhile inblank = blanks at hspan hblanks
    generalize s.dropWhile inblank = t at h hspan hstop
    unfold skipSign at h
    by_cases hdash : t.head?.any isDash = true
    · rw [if_pos hdash] at h
      obtain ⟨rfl, rfl⟩ := Prod.mk.inj h
      obtain ⟨c, hc, hdash⟩ := (Option.any_eq_true _ _).mp hdash
      refine ⟨blanks, [c], ?_, hblanks, Or.inl ⟨rfl, ?_⟩, fun h => absurd h (List.cons_ne_nil _ _)⟩
      · rw [hspan, head?_eq_some_cons hc]
        rfl
      · rcases (Bool.or_eq_true _ _).mp hdash with h | h
        · exact Or.inl (by rw [of_decide_eq_true h])
        · exact Or.inr (by rw [of_decide_eq_true h])
    · rw [if_neg hdash] at h
      by_cases hplus : t.head? = some 43
      · rw [if_pos hplus] at h
        obtain ⟨rfl, rfl⟩ := Prod.mk.inj h
        refine ⟨blanks, [43], ?_, hblanks, Or.inr ⟨rfl, Or.inr rfl⟩,
          fun h => absurd h (List.cons_ne_nil _ _)⟩
        rw [hspan, head?_eq_some_cons hplus]
        rfl
      · rw [if_neg hplus] at h
        obtain ⟨rfl, rfl⟩ := Prod.mk.inj h
        refine ⟨blanks, [], hspan, hblanks, Or.inr ⟨rfl, Or.inl rfl⟩, fun _ c hc => ?_⟩
        refine ⟨hstop c hc, ?_, ?_⟩
        · rw [hc, Option.any_some] at hdash
          exact Bool.eq_false_iff.mpr hdash
        · rintro rfl
          exact hplus hc
  · rintro ⟨blanks, sign, rfl, hblanks, hsign, hplain⟩
    rw [List.dropWhile_append_of_pos hblanks]
    have hstay : ∀ {c : UInt8} {t : Bytes}, inblank c = false →
        (c :: t).dropWhile inblank = c :: t := by
      intro c t hc
      rw [List.dropWhile_cons, if_neg (Bool.eq_false_iff.mp hc)]
    rcases hsign with ⟨rfl, rfl | rfl⟩ | ⟨rfl, rfl | rfl⟩
    · rw [List.singleton_append, hstay (by decide)]
      rfl
    · rw [List.singleton_append, hstay (by decide)]
      rfl
    · rw [List.nil_append]
      cases text with
      | nil => rfl
      | cons c text =>
        obtain ⟨hblank, hdash, hplus⟩ := hplain rfl c rfl
        rw [hstay hblank]
        unfold skipSign
        rw [List.head?_cons, Option.any_some, hdash, if_neg Bool.false_ne_true,
          if_neg fun h => hplus (Option.some.inj h)]
    · rw [List.singleton_append, hstay (by decide)]
      rfl

theorem span_eq_iff {p : UInt8 → Prop} [DecidablePred p] {s run rest : Bytes} :
    (s.takeWhile (p ·), s.dropWhile (p ·)) = (run, rest) ↔
      s = run ++ rest ∧ (∀ c ∈ run, p c) ∧ ∀ c, rest.head? = some c → ¬ p c := by
  constructor
  · intro h
    obtain ⟨rfl, rfl⟩ := Prod.mk.inj h
    refine ⟨List.takeWhile_append_dropWhile.symm,
      fun c hc => ?_, fun c hc => ?_⟩
    · have hmem : decide (p c) = true := List.mem_takeWhile_imp (p := fun c => decide (p c)) hc
      exact of_decide_eq_true hmem
    · have hnot := List.head?_dropWhile_not (fun c => decide (p c)) s
      rw [hc] at hnot
      exact of_decide_eq_false hnot
  · rintro ⟨rfl, hrun, hrest⟩
    have hall : ∀ c ∈ run, decide (p c) = true := fun c hc => decide_eq_true (hrun c hc)
    rw [List.takeWhile_append_of_pos hall, List.dropWhile_append_of_pos hall]
    cases rest with
    | nil => rw [List.takeWhile_nil, List.dropWhile_nil, List.append_nil]
    | cons c rest =>
      have hc : ¬ decide (p c) = true := fun h => hrest c rfl (of_decide_eq_true h)
      rw [List.takeWhile_cons, List.dropWhile_cons, if_neg hc, if_neg hc, List.append_nil]

def skipAsked (asked : Int) (s : Bytes) : Nat × Bytes :=
  if asked = 0 then skipBase 8 s else (asked.toNat, s)

theorem skipAsked_eq_iff {asked : Int} (hasked : 0 ≤ asked) {base : Nat} {s text : Bytes} :
    skipAsked asked s = (base, text) ↔
      ∃ front, s = front ++ text ∧ BasePart asked base front text := by
  unfold skipAsked BasePart
  by_cases h : asked = 0
  · rw [if_pos h, skipBase_eq_iff]
    constructor
    · rintro ⟨front, hs, hfront⟩
      exact ⟨front, hs, Or.inl ⟨h, hfront⟩⟩
    · rintro ⟨front, hs, ⟨-, hfront⟩ | ⟨hne, -⟩⟩
      · exact ⟨front, hs, hfront⟩
      · exact absurd h hne
  · rw [if_neg h]
    constructor
    · intro heq
      obtain ⟨rfl, rfl⟩ := Prod.mk.inj heq
      exact ⟨[], rfl, Or.inr ⟨h, (Int.toNat_of_nonneg hasked).symm, rfl⟩⟩
    · rintro ⟨front, rfl, ⟨hzero, -⟩ | ⟨-, rfl, rfl⟩⟩
      · exact absurd hzero h
      · rfl

theorem parts_iff {s : Bytes} {asked : Int} (hasked : 0 ≤ asked) {underscore neg : Bool}
    {base : Nat} {run rest : Bytes} :
    Parts s asked underscore neg base run rest ↔
      ∃ signed text, skipSign (s.dropWhile inblank) = (neg, signed) ∧
        skipAsked asked signed = (base, text) ∧
        (text.takeWhile (InRun underscore base ·), text.dropWhile (InRun underscore base ·)) =
          (run, rest) := by
  constructor
  · rintro ⟨blanks, sign, front, hs, hblanks, hsign, hplain, hfront, hrun, hrest⟩
    exact ⟨front ++ (run ++ rest), run ++ rest,
      skipSign_eq_iff.mpr ⟨blanks, sign, hs, hblanks, hsign, hplain⟩,
      (skipAsked_eq_iff hasked).mpr ⟨front, rfl, hfront⟩, span_eq_iff.mpr ⟨rfl, hrun, hrest⟩⟩
  · rintro ⟨signed, text, hsigned, htext, hspan⟩
    obtain ⟨blanks, sign, rfl, hblanks, hsign, hplain⟩ := skipSign_eq_iff.mp hsigned
    obtain ⟨front, rfl, hfront⟩ := (skipAsked_eq_iff hasked).mp htext
    obtain ⟨rfl, hrun, hrest⟩ := span_eq_iff.mp hspan
    exact ⟨blanks, sign, front, rfl, hblanks, hsign, hplain, hfront, hrun, hrest⟩

theorem Parts.exists (s : Bytes) {asked : Int} (hasked : 0 ≤ asked) (underscore : Bool) :
    ∃ neg base run rest, Parts s asked underscore neg base run rest :=
  ⟨_, _, _, _, (parts_iff hasked).mpr ⟨_, _, rfl, rfl, rfl⟩⟩

theorem Parts.unique {s : Bytes} {asked : Int} (hasked : 0 ≤ asked) {underscore neg neg' : Bool}
    {base base' : Nat} {run run' rest rest' : Bytes}
    (h : Parts s asked underscore neg base run rest)
    (h' : Parts s asked underscore neg' base' run' rest') :
    neg' = neg ∧ base' = base ∧ run' = run ∧ rest' = rest := by
  obtain ⟨signed, text, hsigned, htext, hspan⟩ := (parts_iff hasked).mp h
  obtain ⟨signed', text', hsigned', htext', hspan'⟩ := (parts_iff hasked).mp h'
  obtain ⟨rfl, rfl⟩ := Prod.mk.inj (hsigned.symm.trans hsigned')
  obtain ⟨rfl, rfl⟩ := Prod.mk.inj (htext.symm.trans htext')
  obtain ⟨rfl, rfl⟩ := Prod.mk.inj (hspan.symm.trans hspan')
  exact ⟨rfl, rfl, rfl, rfl⟩

theorem zdigit_underscore (base : Nat) (hbase : base ≤ 36) : zdigit base 95 = none := by
  unfold zdigit
  by_cases hten : base ≤ 10
  · have hnot : ¬ (48 ≤ (95 : UInt8).toNat ∧ (95 : UInt8).toNat < 48 + base) := by
      show ¬ (48 ≤ 95 ∧ 95 < 48 + base)
      omega
    rw [if_pos hten, if_neg hnot]
  · have hnot : ¬ ((97 ≤ (95 : UInt8).toNat ∧ (95 : UInt8).toNat < 97 + base - 10) ∨
        (65 ≤ (95 : UInt8).toNat ∧ (95 : UInt8).toNat < 65 + base - 10)) := by
      show ¬ ((97 ≤ 95 ∧ 95 < 97 + base - 10) ∨ (65 ≤ 95 ∧ 95 < 65 + base - 10))
      omega
    rw [if_neg hten, if_neg (by decide), if_neg hnot]

theorem digitLoop_cut {underscore : Bool} {base : Nat} {run rest : Bytes}
    (hrun : ∀ c ∈ run, InRun underscore base c)
    (hrest : ∀ c, rest.head? = some c → ¬ InRun underscore base c) (number cut offset : Nat) :
    digitLoop underscore base number (some cut) offset (run ++ rest) =
      { number := number, trunc := some cut, offset := offset + run.length, rest := rest } := by
  induction run generalizing offset with
  | nil =>
    cases rest with
    | nil => rfl
    | cons c rest =>
      obtain ⟨hdigit, hunder⟩ := not_or.mp (hrest c rfl)
      rw [List.nil_append]
      unfold digitLoop
      rw [if_neg hunder, Option.not_isSome_iff_eq_none.mp hdigit]
      rfl
  | cons c run ih =>
    have hnext := ih (fun c hc => hrun c (List.mem_cons_of_mem _ hc)) (offset + 1)
    rw [Nat.add_assoc, Nat.add_comm 1, ← List.length_cons (a := c)] at hnext
    rw [List.cons_append]
    unfold digitLoop
    by_cases hunder : underscore = true ∧ c = 95
    · rw [if_pos hunder]
      exact hnext
    · rw [if_neg hunder]
      obtain ⟨d, hd⟩ := Option.isSome_iff_exists.mp
        ((hrun c List.mem_cons_self).resolve_right hunder)
      rw [hd]
      exact hnext

theorem digitsOf_cons_of_none {base : Nat} {c : UInt8} {run : Bytes} (h : zdigit base c = none) :
    digitsOf base (c :: run) = digitsOf base run := List.filterMap_cons_none h

theorem digitsOf_cons_of_some {base d : Nat} {c : UInt8} {run : Bytes}
    (h : zdigit base c = some d) : digitsOf base (c :: run) = d :: digitsOf base run :=
  List.filterMap_cons_some h

theorem digitLoop_run {underscore : Bool} {base : Nat} (hbase : base ≤ 36) {run rest : Bytes}
    (hrun : ∀ c ∈ run, InRun underscore base c)
    (hrest : ∀ c, rest.head? = some c → ¬ InRun underscore base c) (number offset : Nat) :
    ∃ trunc, digitLoop underscore base number none offset (run ++ rest) =
        { number := (readWrapping base (2 ^ 64) number (digitsOf base run)).1, trunc := trunc,
          offset := offset + run.length, rest := rest } ∧
      (trunc = none ↔ (readWrapping base (2 ^ 64) number (digitsOf base run)).2 = true) := by
  induction run generalizing number offset with
  | nil =>
    refine ⟨none, ?_, iff_of_true rfl rfl⟩
    cases rest with
    | nil => rfl
    | cons c rest =>
      obtain ⟨hdigit, hunder⟩ := not_or.mp (hrest c rfl)
      rw [List.nil_append]
      unfold digitLoop
      rw [if_neg hunder, Option.not_isSome_iff_eq_none.mp hdigit]
      rfl
  | cons c run ih =>
    have htail : ∀ c ∈ run, InRun underscore base c :=
      fun c hc => hrun c (List.mem_cons_of_mem _ hc)
    have hoffset : offset + 1 + run.length = offset + (c :: run).length := by
      rw [List.length_cons]
      omega
    rw [List.cons_append]
    unfold digitLoop
    by_cases hunder : underscore = true ∧ c = 95
    · obtain ⟨trunc, hloop, htrunc⟩ := ih htail number (offset + 1)
      have hnone : zdigit base c = none := by rw [hunder.2, zdigit_underscore base hbase]
      rw [hoffset] at hloop
      rw [if_pos hunder, digitsOf_cons_of_none hnone]
      exact ⟨trunc, hloop, htrunc⟩
    · obtain ⟨d, hd⟩ := Option.isSome_iff_exists.mp
        ((hrun c List.mem_cons_self).resolve_right hunder)
      rw [if_neg hunder, hd, digitsOf_cons_of_some hd]
      unfold readWrapping zulong
      dsimp only
      rw [if_neg (show ¬ (none : Option Nat).isSome = true from Bool.false_ne_true)]
      by_cases hfalls : (number * base + d) % 2 ^ 64 < number
      · rw [if_pos hfalls, if_pos hfalls, digitLoop_cut htail hrest, hoffset]
        exact ⟨some offset, rfl, iff_of_false (Option.some_ne_none _) Bool.false_ne_true⟩
      · obtain ⟨trunc, hloop, htrunc⟩ := ih htail ((number * base + d) % 2 ^ 64) (offset + 1)
        rw [hoffset] at hloop
        rw [if_neg hfalls, if_neg hfalls]
        exact ⟨trunc, hloop, htrunc⟩

end NextBSD.Zsh
