import Mathlib.Data.List.Basic
import NextBSD.Zsh.NumberExact

/-!
# pattern.c: numeric globs

`<a-b>` and its kin, in front of literals, `?` and `*`.  What is left of the test string is all
that such nodes look at, so `patmatch` is a function of it.  No globbing flag is set, and a
pattern is matched to the end of the string.
-/

namespace NextBSD.Zsh.Pattern.Numeric

open Digits

inductive ZmbInd where
  | valid
  | incomplete
  | invalid
  deriving DecidableEq, Repr

/-- The MULTIBYTE option, and the locale: `mbrtowc` gives a character and how many bytes it
took.  No byte of another character is a character of ASCII. -/
structure Charset where
  multibyte : Bool
  mbrtowc : Bytes → Except ZmbInd (Nat × Nat)
  mbrtowc_ge : ∀ {c s wc n}, 128 ≤ c → mbrtowc (c :: s) = .ok (wc, n) → 128 ≤ wc

structure CharRef where
  value : Nat
  ind : ZmbInd
  length : Nat
  deriving DecidableEq, Repr

/-- `charref`, `charnext` and `charrefinc`, at the byte `c` and what follows it. -/
def charref (cs : Charset) (c : UInt8) (s : Bytes) : CharRef :=
  if cs.multibyte = true ∧ 128 ≤ c then
    match cs.mbrtowc (c :: s) with
    | .error ind => { value := 0xdc00 + c.toNat, ind := ind, length := 1 }
    | .ok (wc, n) => { value := wc, ind := .valid, length := if n = 0 then 1 else n }
  else { value := c.toNat, ind := .valid, length := 1 }

def charnext (cs : Charset) : Bytes → Bytes
  | [] => []
  | c :: s => (c :: s).drop (charref cs c s).length

theorem charref_length_pos (cs : Charset) (c : UInt8) (s : Bytes) :
    0 < (charref cs c s).length := by
  unfold charref
  split
  · split
    · exact Nat.one_pos
    · dsimp only
      split_ifs <;> omega
  · exact Nat.one_pos

theorem charnext_length_lt (cs : Charset) (c : UInt8) (s : Bytes) :
    (charnext cs (c :: s)).length < (c :: s).length := by
  have hpos := charref_length_pos cs c s
  rw [charnext, List.length_drop, List.length_cons]
  omega

/-- The ends of a string that begin with a character of it, the last of which is empty. -/
def charStarts (cs : Charset) : Bytes → List Bytes
  | [] => [[]]
  | c :: s => (c :: s) :: charStarts cs (charnext cs (c :: s))
  termination_by s => s.length
  decreasing_by exact charnext_length_lt cs c s

inductive Node where
  | exactly (s : Bytes)
  | any
  | star
  | numrng (low high : Nat)
  | numfrom (low : Nat)
  | numto (high : Nat)
  | numany
  deriving DecidableEq, Repr

/-- The loop of `P_EXACTLY`: what it leaves of the test string, if it comes to the end of the
literal. -/
def exactLoop (cs : Charset) : Bytes → Bytes → Option Bytes
  | [], input => some input
  | _ :: _, [] => none
  | p :: chrop, i :: input =>
    let chpa := charref cs p chrop
    let chin := charref cs i input
    if chin.value = chpa.value ∧ (chin.ind = .valid ↔ chpa.ind = .valid) then
      exactLoop cs (charnext cs (p :: chrop)) (charnext cs (i :: input))
    else none
  termination_by chrop => chrop.length
  decreasing_by exact charnext_length_lt cs p chrop

/-- `ZRANGE_MAX`, for a signed type of 64 bits. -/
def ZRANGE_MAX : Nat := 2 ^ 63 - 1

def digit (c : UInt8) : Nat := c.toNat - 48

def readBound (s : Bytes) : Option Nat × Bytes :=
  if s.head?.any idigit then
    let answer := zstrtolUnderscore s 10 false
    (some answer.value.toNat, answer.endp.getD s)
  else (none, s)

def rangeNode : Option Nat → Option Nat → Node
  | some low, some high => .numrng low high
  | none, some high => .numto high
  | some low, none => .numfrom low
  | none, none => .numany

/-- `patcomppiece`, behind the token for `<`: the node, and what is behind the token for `>`.  What
stands between the bounds is taken to be the dash. -/
def patcomppieceInang (s : Bytes) : Option (Node × Bytes) :=
  let (low, s) := readBound s
  let (high, s) := readBound s.tail
  if s.head? = some 0x95 then some (rangeNode low high, s.tail) else none

def addDigit (comp : Nat) (c : UInt8) : Option Nat :=
  if ZRANGE_MAX / 10 < comp then none
  else if ZRANGE_MAX - comp * 10 < digit c then none
  else some (comp * 10 + digit c)

/-- The number, and the lengths of what was read and of what was counted, `compend`. -/
structure NumberScan where
  comp : Nat
  length : Nat
  compend : Nat
  deriving DecidableEq, Repr

/-- The loop over the digits.  `P_NUMFROM` skips what does not fit. -/
def scanNumber (isFrom : Bool) (scan : NumberScan) : Bytes → NumberScan
  | [] => scan
  | c :: s =>
    if idigit c then
      let sum := addDigit scan.comp c
      let comp := sum.getD scan.comp
      if (sum = none ∨ 2 ^ 62 ≤ comp) ∧ isFrom = true then
        { comp := comp
          length := scan.length + 1 + (s.takeWhile idigit).length
          compend := scan.compend + 1 }
      else
        scanNumber isFrom { comp := comp, length := scan.length + 1, compend := scan.compend + 1 } s
    else scan

/-- A literal that does not begin with a digit: only the first attempt can succeed. -/
def noDigitNext : List Node → Bool
  | .exactly [] :: _ => true
  | .exactly (c :: _) :: _ => !idigit c
  | _ => false

/-- The loop that goes back over the digits, from `left` of them.  `high` is the upper bound, if
there is one. -/
def numberBack (low : Nat) (high : Option Nat) (once : Bool) (next : Bytes → Bool) (s : Bytes)
    (compend : Nat) (first : Bool) : Nat → Nat → Bool
  | 0, _ => false
  | left + 1, comp =>
    if comp < low ∧ left + 1 ≤ compend then false
    else if high.all (comp ≤ ·) && next (s.drop (left + 1)) then true
    else if first && once then false
    else numberBack low high once next s compend false left
      (if left < compend then comp / 10 else comp)

/-- `P_NUMRNG`, `P_NUMFROM` and `P_NUMTO`. -/
def runNumber (isFrom : Bool) (low : Nat) (high : Option Nat) (once : Bool)
    (next : Bytes → Bool) (s : Bytes) : Bool :=
  let scan := scanNumber isFrom { comp := 0, length := 0, compend := 0 } s
  numberBack low high once next s scan.compend true scan.length scan.comp

/-- `P_NUMANY`. -/
def numanyBack (once : Bool) (next : Bytes → Bool) (s : Bytes) (first : Bool) : Nat → Bool
  | 0 => false
  | left + 1 =>
    if next (s.drop (left + 1)) then true
    else if first && once then false
    else numanyBack once next s false left

def lookahead (cs : Charset) (p : UInt8) (chrop : Bytes) : Bytes → Bool
  | [] => false
  | c :: s => (charref cs c s).value = (charref cs p chrop).value

local instance lawfulBEq_bytes : LawfulBEq Bytes := inferInstance

def patmatch (cs : Charset) : List Node → Bytes → Bool
  | [], input => input.isEmpty
  | .exactly s :: next, input => (exactLoop cs s input).any (patmatch cs next)
  | .any :: next, input => !input.isEmpty && patmatch cs next (charnext cs input)
  | .star :: next, input =>
    match next with
    | .star :: _ => patmatch cs next input
    | [] => true
    | [.exactly (p :: chrop)] =>
      -- The literal can only be at the end.
      let tail := input.drop (input.length - (p :: chrop).length)
      if input.length < (p :: chrop).length then false
      else if cs.multibyte = true ∧ tail ∉ (charStarts cs input).dropLast then false
      else patmatch cs next tail
    | .exactly (p :: chrop) :: _ =>
      (charStarts cs input).reverse.any fun s => lookahead cs p chrop s && patmatch cs next s
    | _ => (charStarts cs input).reverse.any (patmatch cs next)
  | .numrng low high :: next, input =>
    runNumber false low (some high) (noDigitNext next) (patmatch cs next) input
  | .numfrom low :: next, input =>
    runNumber true low none (noDigitNext next) (patmatch cs next) input
  | .numto high :: next, input =>
    runNumber false 0 (some high) (noDigitNext next) (patmatch cs next) input
  | .numany :: next, input =>
    numanyBack (noDigitNext next) (patmatch cs next) input true (input.takeWhile idigit).length

end NextBSD.Zsh.Pattern.Numeric
