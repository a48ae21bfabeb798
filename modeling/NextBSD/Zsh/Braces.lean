import NextBSD.Library.Progression
import NextBSD.Zsh.Number
import NextBSD.Zsh.Padding

/-!
# glob.c: ranges in braces

The first part of `xpandbraces`: the group is found and, when it has no comma, expanded as a range
of characters or numbers.  A pointer into a string is the string from there on.  The text around
the group is shorter than an `int` counts.
-/

namespace NextBSD.Zsh.Braces

open Padding (int)
open Progression (countDown)

abbrev Inbrace : UInt8 := 0x8f
abbrev Outbrace : UInt8 := 0x90
abbrev Comma : UInt8 := 0x9a

def itok (c : UInt8) : Bool := 0x84 ≤ c && c ≤ 0xa1

/-- `#$^*(())$=|{}[]` and the characters of the other tokens, from `Pound` on. -/
def ztokens : Bytes :=
  [35, 36, 94, 42, 40, 40, 41, 41, 36, 61, 124, 123, 125, 91, 93, 96, 60, 62, 62, 63, 126, 96, 44,
    45, 33, 39, 34, 92, 92]

/-- `ztokens[c - Pound]` -/
def untoken (c : UInt8) : UInt8 := ztokens.getD (c.toNat - 0x84) 0

/-- The characters of a locale: `MB_METACHARLENCONV`, of which `none` is `WEOF`, and `nicechar`. -/
structure CharConv where
  conv : Bytes → Option Nat × Nat
  nicechar : Nat → Bytes
  conv_ascii : ∀ c s, c.toNat < 128 → conv (c :: s) = (some c.toNat, 1)
  nicechar_print : ∀ n, 32 ≤ n → n < 127 → nicechar n = [UInt8.ofNat n]

/-- Where the closing brace is, counted from the opening one, and the commas and pairs of dots that
stand in between and in no inner group. -/
structure Group where
  offset : Nat
  comma : Nat
  dotdot : Nat
  deriving DecidableEq, Repr

/-- The loop that matches up braces.  With `skip` it is at the second one of two dots. -/
def matchBraces (skip : Bool) (bc : Nat) (g : Group) : Bytes → Option Group
  | [] => none
  | c :: s =>
    let next := { g with offset := g.offset + 1 }
    if skip then matchBraces false bc next s
    else if c = Inbrace then matchBraces false (bc + 1) next s
    else if c = Outbrace then if bc = 1 then some g else matchBraces false (bc - 1) next s
    else if bc = 1 ∧ c = Comma then matchBraces false bc { next with comma := g.comma + 1 } s
    else if bc = 1 ∧ c = 46 ∧ s.head? = some 46 then
      matchBraces true bc { next with dotdot := g.dotdot + 1 } s
    else matchBraces false bc next s

def rangeChar (cc : CharConv) : Bytes → Option (Nat × Bytes)
  | [] => none
  | c :: s =>
    if itok c then
      if c = Inbrace then none else (cc.conv [untoken c]).1.map fun n => (n, s)
    else (cc.conv (c :: s)).1.map fun n => (n, (c :: s).drop (cc.conv (c :: s)).2)

/-- `s[0] == '.' && s[1] == '.'` -/
def twoDots (s : Bytes) : Bool := s.head? = some 46 && s.tail.head? = some 46

def bracechardots (cc : CharConv) (s : Bytes) : Option (Nat × Nat) :=
  (rangeChar cc s).bind fun (cstart, s) =>
    if twoDots s ∧ s.drop 2 ≠ [] then
      (rangeChar cc (s.drop 2)).bind fun (cend, s) =>
        if s.head? = some Outbrace then some (cstart, cend) else none
    else none

/-- Nodes are put in behind the last one, or all at the same place: then they are turned round. -/
def inserted (rev : Bool) (words : List Bytes) : List Bytes := if rev then words else words.reverse

/-- `do … while (cend-- > cstart)` -/
def charLoop (cc : CharConv) (front back : Bytes) (cstart : Nat) : Nat → List Bytes
  | 0 => [front ++ cc.nicechar 0 ++ back]
  | cend + 1 =>
    (front ++ cc.nicechar (cend + 1) ++ back) ::
      if cstart < cend + 1 then charLoop cc front back cstart cend else []

def charRange (cc : CharConv) (front back : Bytes) (cstart cend : Nat) : List Bytes :=
  if cend < cstart then inserted true (charLoop cc front back cend cstart)
  else inserted false (charLoop cc front back cstart cend)

/-- The numbers of a range, their widths, and where the second and the third one stand. -/
structure Range where
  rstart : Int
  rend : Int
  rincr : Int
  wid1 : Int
  wid2 : Int
  wid3 : Int
  dots : Bytes
  dots2 : Option Bytes
  deriving DecidableEq, Repr

/-- `zstrtol(s, &p, 10)` -/
def zstrtol (s : Bytes) : Int × Bytes :=
  let answer := zstrtolUnderscore s 10 false
  (answer.value, answer.endp.getD s)

/-- The increment, and `wid2` and `wid3`.  `p` is behind the second number, `str2` at the closing
brace. -/
def parseIncr (dotdot : Nat) (dots p str2 : Bytes) : Option (Int × Int × Int × Option Bytes) :=
  if p.length = str2.length then
    some (1, int ((dots.length : Int) - str2.length - 2), 0, none)
  else if dotdot = 2 ∧ twoDots p then
    let (rincr, q) := zstrtol (p.drop 2)
    if q.length ≠ str2.length ∨ int rincr = 0 then none
    else some (int rincr, int ((dots.length : Int) - p.length - 2),
      int ((p.length : Int) - q.length - 2), some p)
  else none

/-- The range from behind the opening brace; `none` when it is not one of numbers. -/
def parseRange (dotdot : Nat) (s str2 : Bytes) : Option Range :=
  let (rstart, dots) := zstrtol s
  if dots.length = s.length ∨ twoDots dots = false then none
  else
    let (rend, p) := zstrtol (dots.drop 2)
    if p.length = (dots.drop 2).length then none
    else
      (parseIncr dotdot dots p str2).map fun (rincr, wid2, wid3, dots2) =>
        { rstart := rstart, rend := rend, rincr := rincr
          wid1 := int ((s.length : Int) - dots.length), wid2 := wid2, wid3 := wid3
          dots := dots, dots2 := dots2 }

def startsZero (s : Bytes) : Bool :=
  s.head? = some 48 || (s.head?.any isDash && s.tail.head? = some 48)

def Range.minw (r : Range) (s : Bytes) : Int :=
  if startsZero s then r.wid1
  else if startsZero (r.dots.drop 2) then r.wid2
  else
    match r.dots2 with
    | some dots2 => if startsZero (dots2.drop 2) then r.wid3 else 0
    | none => 0

/-- `%0*ld` with a width that is not negative. -/
def zeroPadded (width : Nat) (n : Int) : Bytes :=
  let digits := decimal n.natAbs
  if n < 0 then 45 :: (List.replicate (width - (digits.length + 1)) 48 ++ digits)
  else List.replicate (width - digits.length) 48 ++ digits

/-- `%0*ld`: a negative width is one to the left. -/
def formatLong (width n : Int) : Bytes :=
  if width < 0 then
    printLong n ++ List.replicate (width.natAbs - (printLong n).length) 32
  else zeroPadded width.toNat n

/-- The word with a number in the place of the group, which is written into a copy of the word:
`none` when it does not fit there. -/
def writeNumber (front back : Bytes) (size : Nat) (minw n : Int) : Option Bytes :=
  let word := front ++ formatLong minw n ++ back
  if word.length < size then some word else none

def ZLONG_MIN : Int := -2 ^ 63

/-- The numbers from the highest one down, and whether they are to be put in as they come; `none`
when something overflows. -/
def Range.numbers (r : Range) : Option (Bool × List Int) :=
  if r.rincr = -2 ^ 31 then none
  else
    let rev := decide (r.rincr < 0)
    let rincr := if r.rincr < 0 then -r.rincr else r.rincr
    if r.rend < r.rstart then
      (countDown ZLONG_MIN r.rend rincr r.rstart).map fun numbers => (!rev, numbers)
    else if 1 < rincr then
      if 2 ^ 63 ≤ r.rend - r.rstart then none
      else
        (countDown ZLONG_MIN r.rstart rincr (r.rend - (r.rend - r.rstart) % rincr)).map
          fun numbers => (rev, numbers)
    else (countDown ZLONG_MIN r.rstart rincr r.rend).map fun numbers => (rev, numbers)

/-- The words of a range of numbers; `none` when something overflows. -/
def Range.words (r : Range) (front s back : Bytes) (size : Nat) : Option (List Bytes) :=
  r.numbers.bind fun (rev, numbers) =>
    (numbers.mapM (writeNumber front back size (r.minw s))).map (inserted rev)

/-- `xpandbraces` on `front`, an opening brace and `s`, as far as it expands ranges: `none` when
something overflows, and `some none` when the group is not a range. -/
def xpandrange (cc : CharConv) (front s : Bytes) : Option (Option (List Bytes)) :=
  match matchBraces false 1 { offset := 0, comma := 0, dotdot := 0 } s with
  | none => some none
  | some g =>
    let str2 := s.drop g.offset
    if g.comma = 0 ∧ g.dotdot ≠ 0 then
      match bracechardots cc s with
      | some (cstart, cend) => some (some (charRange cc front str2.tail cstart cend))
      | none =>
        match parseRange g.dotdot s str2 with
        | some r => (r.words front s str2.tail (front.length + s.length + 2)).map some
        | none => some none
    else some none

end NextBSD.Zsh.Braces
