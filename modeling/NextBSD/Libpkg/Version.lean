import NextBSD.Libpkg.Cstring

/-!
# Comparing versions

`libpkg/pkg_version.c`.  A pointer into a string is the list of the characters
from there to the end, so `p < q` is a comparison of lengths.
-/

namespace NextBSD.Libpkg

/-- What `split_version` returns: the version string, the text from `endname` on, and
the two numbers. -/
structure SplitVersion where
  versionstr : List Char
  endname : List Char
  epoch : Nat
  revision : Nat
  deriving DecidableEq, Repr

/-- What follows the last `-`, or everything where there is none. -/
def versionPart (pkgname : List Char) : List Char :=
  match strrchr pkgname '-' with
  | some ch => ch.tail
  | none => pkgname

def splitVersion (pkgname : List Char) : SplitVersion :=
  let versionstr := versionPart pkgname
  let underscore := strrchr versionstr '_'
  let comma := strrchr (match underscore with
    | some ch => ch.tail
    | none => versionstr) ','
  let number (ch : Option (List Char)) : Nat := match ch with
    | some ch => strtoul ch.tail
    | none => 0
  { versionstr
    endname := match underscore with
      | some ch => ch
      | none => comma.getD []
    epoch := number comma
    revision := number underscore }

structure VersionComponent where
  n : Int := 0
  pl : Int := 0
  a : Int := 0
  deriving DecidableEq, Repr

def abase : Int := 2

def letterValue (c : Char) : Int := c.toNat - 'a'.toNat + abase

structure Stage where
  name : List Char
  value : Int
  deriving DecidableEq, Repr

def stages : List Stage :=
  [{ name := "pl".toList, value := 0 },
   { name := "snap".toList, value := letterValue 's' },
   { name := "alpha".toList, value := letterValue 'a' },
   { name := "beta".toList, value := letterValue 'b' },
   { name := "pre".toList, value := letterValue 'p' },
   { name := "rc".toList, value := letterValue 'r' }]

def strncaseEq (s t : List Char) (n : Nat) : Bool :=
  (s.take n).map Char.toLower = (t.take n).map Char.toLower

def startsWith (p : Char → Bool) (s : List Char) : Bool := s.head?.any p

/-- The version number: its value, whether a stage word may follow, and the rest. -/
def getNumber : List Char → Int × Bool × List Char
  | [] => (-1, true, [])
  | c :: t =>
    if c.isDigit then (strtoll (c :: t), false, (c :: t).dropWhile Char.isDigit)
    else if c = '*' then (-2, false, t.dropWhile (· ≠ '+'))
    else (-1, true, c :: t)

/-- The stage word at the start of the text, where no further letter follows it. -/
def findStage (pos : List Char) : Option Stage :=
  stages.find? fun stage =>
    strncaseEq pos stage.name stage.name.length &&
      !startsWith Char.isAlpha (pos.drop stage.name.length)

def getLetter (hasstage : Bool) : List Char → Int × Bool × List Char
  | [] => (0, false, [])
  | c :: t =>
    if c.isAlpha then
      match if startsWith Char.isAlpha t then findStage (c :: t) else none with
      | some stage =>
        if hasstage then (stage.value, true, (c :: t).drop stage.name.length)
        else (0, false, c :: t) -- insert dot
      | none => (letterValue c.toLower, true, t.dropWhile Char.isAlpha)
    else (0, false, c :: t)

def getPatchlevel (haspatchlevel : Bool) (pos : List Char) : Int × List Char :=
  if haspatchlevel then
    if startsWith Char.isDigit pos then (strtoll pos, pos.dropWhile Char.isDigit)
    else (-1, pos)
  else (0, pos)

def isSeparator (c : Char) : Bool := !c.isDigit && !c.isAlpha && c ≠ '+' && c ≠ '*'

def getComponent (position : List Char) : VersionComponent × List Char :=
  let (n, hasstage, pos) := getNumber position
  let (a, haspatchlevel, pos) := getLetter hasstage pos
  let (pl, pos) := getPatchlevel haspatchlevel pos
  ({ n, pl, a }, pos.dropWhile isSeparator)

/-- One side of a round of the loop: the component read and the position after it, or
`none` if the side is blocked by a `+` or at its end. -/
def readComponent (v ve : List Char) : Option (VersionComponent × List Char) :=
  if ve.length < v.length ∧ v.head? ≠ some '+' then some (getComponent v) else none

/-- `if (v < ve) v++`. -/
def skipBlock (v ve : List Char) : List Char := if ve.length < v.length then v.tail else v

def compareComponents (vc1 vc2 : VersionComponent) : Int :=
  if vc1.n ≠ vc2.n then if vc1.n < vc2.n then -1 else 1
  else if vc1.a ≠ vc2.a then if vc1.a < vc2.a then -1 else 1
  else if vc1.pl ≠ vc2.pl then if vc1.pl < vc2.pl then -1 else 1
  else 0

/-- The loop over the components, entered with `result == 0`; `none` if it needs more
than `fuel` rounds. -/
def versionLoop (ve1 ve2 : List Char) : Nat → List Char → List Char → Option Int
  | fuel, v1, v2 =>
    if ve1.length < v1.length ∨ ve2.length < v2.length then
      match fuel with
      | 0 => none
      | fuel + 1 =>
        match readComponent v1 ve1, readComponent v2 ve2 with
        | none, none => versionLoop ve1 ve2 fuel (skipBlock v1 ve1) (skipBlock v2 ve2)
        | r1, r2 =>
          let (vc1, v1) := r1.getD ({}, v1)
          let (vc2, v2) := r2.getD ({}, v2)
          let result := compareComponents vc1 vc2
          if result ≠ 0 then some result else versionLoop ve1 ve2 fuel v1 v2
    else some 0

/-- `pkg_version_cmp`, with at most `fuel` rounds of its loop. -/
def pkgVersionCmp (fuel : Nat) (pkg1 pkg2 : String) : Option Int :=
  let s1 := splitVersion pkg1.toList
  let s2 := splitVersion pkg2.toList
  let result : Int :=
    if s1.epoch ≠ s2.epoch then if s1.epoch < s2.epoch then -1 else 1 else 0
  let len1 := s1.versionstr.length - s1.endname.length
  let len2 := s2.versionstr.length - s2.endname.length
  let result :=
    -- shortcut check for equality before the parsing routines
    if result = 0 ∧ (len1 ≠ len2 ∨ strncaseEq s1.versionstr s2.versionstr len1 = false) then
      versionLoop s1.endname s2.endname fuel s1.versionstr s2.versionstr
    else some result
  result.map fun result =>
    if result = 0 ∧ s1.revision ≠ s2.revision then if s1.revision < s2.revision then -1 else 1
    else result

end NextBSD.Libpkg
