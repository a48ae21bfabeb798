import NextBSD.Library.Edits

/-!
# diff.c: the differences of two texts

A text is the bytes before its `NUL`.  A pointer into it is what is left of the text from
there on, and lines are numbered from 0.  Lengths and line numbers are within `int`.
-/

namespace NextBSD.Libpkg

def lengthMaskSz : Nat := 13

def lengthMask : Nat := 2 ^ lengthMaskSz - 1

def newline : UInt8 := 10

/-- `struct DLine`, as far as it is about the line.  `z` starts with the line and goes on to
the end of the text. -/
structure DLine where
  z : List UInt8
  h : UInt32
  n : Nat
  deriving DecidableEq, Repr, Inhabited

/-- The array of a file.  `iNext` belongs to its lines; `iHash` to its buckets, one for each
line. -/
structure DFile where
  lines : List DLine
  iNext : Nat → Nat
  iHash : Nat → Nat

def signExtend (c : UInt8) : UInt32 := c.toInt8.toInt32.toUInt32

def hashBytes (line : List UInt8) : UInt32 :=
  line.foldl (fun h c => h ^^^ (h <<< 2) ^^^ signExtend c) 0

def lineText (z : List UInt8) : List UInt8 := z.takeWhile (· ≠ newline)

/-- What comes after the line at the start of `z` and its newline. -/
def afterLine (z : List UInt8) : List UInt8 := (z.dropWhile (· ≠ newline)).drop 1

def mkLine (z : List UInt8) : DLine :=
  let k := (lineText z).length
  { z := z, n := k,
    h := (hashBytes (lineText z) <<< UInt32.ofNat lengthMaskSz) ||| UInt32.ofNat k }

/-- The first loop of `break_into_lines`: the number of lines, unless a line is too long. -/
def countLines : List UInt8 → Nat → Nat → Option Nat
  | [], j, nLine => if j > lengthMask then none else some nLine
  | c :: rest, j, nLine =>
    if c = 0 then none
    else if c = newline ∧ rest ≠ [] then
      -- `j` is reset before the loop counts this byte
      if j > lengthMask then none else countLines rest 1 (nLine + 1)
    else countLines rest (j + 1) nLine

/-- One line of the second loop: the line is put in front of the chain of its bucket. -/
def fillLine (nLine : Nat) (f : DFile) (z : List UInt8) : DFile :=
  let i := f.lines.length
  let line := mkLine z
  let h2 := line.h.toNat % nLine
  { lines := f.lines ++ [line]
    iNext := Function.update f.iNext i (f.iHash h2)
    iHash := Function.update f.iHash h2 (i + 1) }

def lineStarts : Nat → List UInt8 → List (List UInt8)
  | 0, _ => []
  | n + 1, z => z :: lineStarts n (afterLine z)

def breakIntoLines (z : List UInt8) : Option DFile :=
  match countLines z 0 1 with
  | none => none
  | some nLine =>
    let a : DFile := { lines := [], iNext := fun _ => 0, iHash := fun _ => 0 }
    if z = [] then some a else some ((lineStarts nLine z).foldl (fillLine nLine) a)

def sameDline (a b : DLine) : Bool :=
  let len := a.h.toNat % (lengthMask + 1)
  a.h == b.h && a.z.take len == b.z.take len

/-- The two files of `struct DContext`.  Its triples are passed on beside it. -/
structure DContext where
  aFrom : DFile
  aTo : DFile

namespace DContext

variable (p : DContext)

def nFrom : Nat := p.aFrom.lines.length

def nTo : Nat := p.aTo.lines.length

/-- The line `i` of the first file is the line `j` of the second. -/
def same (i j : Nat) : Bool := sameDline (p.aFrom.lines.getD i default) (p.aTo.lines.getD j default)

structure Segment where
  iSX : Nat
  iEX : Nat
  iSY : Nat
  iEY : Nat
  deriving DecidableEq, Repr

/-- How many of the `n` pairs of lines that end with `i` and `j` are equal. -/
def extendBack : Nat → Nat → Nat → Nat
  | 0, _, _ => 0
  | n + 1, i, j => if p.same i j then extendBack n (i - 1) (j - 1) + 1 else 0

/-- How many of the `n` pairs of lines that start with `i` and `j` are equal. -/
def extendForward : Nat → Nat → Nat → Nat
  | 0, _, _ => 0
  | n + 1, i, j => if p.same i j then extendForward n (i + 1) (j + 1) + 1 else 0

structure Optimal where
  iSXb : Nat
  iSYb : Nat
  mxLength : Nat

/-- One pair of lines.  Both bounds shrink as `mxLength` grows, and what is past them is left
out.  The source may look at the line behind the range here, and `k` does not depend on it. -/
def optimalStep (iE1 iE2 i : Nat) (o : Optimal) (j : Nat) : Optimal :=
  if ¬ j < iE2 - o.mxLength then o
  else if ¬ p.same i j then o
  else if o.mxLength ≠ 0 ∧ ¬ p.same (i + o.mxLength) (j + o.mxLength) then o
  else
    let k := 1 + p.extendForward (min (iE1 - (i + 1)) (iE2 - (j + 1))) (i + 1) (j + 1)
    if k > o.mxLength then { iSXb := i, iSYb := j, mxLength := k } else o

def optimalRow (iE1 iS2 iE2 : Nat) (o : Optimal) (i : Nat) : Optimal :=
  if ¬ i < iE1 - o.mxLength then o
  else (List.range' iS2 (iE2 - iS2)).foldl (p.optimalStep iE1 iE2 i) o

def optimalLCS (iS1 iE1 iS2 iE2 : Nat) : Segment :=
  let o := (List.range' iS1 (iE1 - iS1)).foldl (p.optimalRow iE1 iS2 iE2)
    { iSXb := iS1, iSYb := iS2, mxLength := 0 }
  { iSX := o.iSXb, iEX := o.iSXb + o.mxLength, iSY := o.iSYb, iEY := o.iSYb + o.mxLength }

/-- The walk along a hash chain to a line in range that is the line `i`, of `limit` more links
at most.  Positions count from 1, and 0 is the end. -/
def chainWalk (iS2 iE2 i : Nat) : Nat → Nat → Nat
  | limit, j =>
    if j > 0 ∧ (j - 1 < iS2 ∨ j ≥ iE2 ∨ ¬ p.same i (j - 1)) then
      match limit with
      | 0 => 0
      | limit + 1 => chainWalk iS2 iE2 i limit (p.aTo.iNext (j - 1))
    else j

structure Search where
  best : Segment
  prev : Segment
  bestScore : Int

def Segment.covers (m : Segment) (i j : Nat) : Prop := i < m.iEX ∧ j ≥ m.iSY ∧ j < m.iEY

instance (m : Segment) (i j : Nat) : Decidable (m.covers i j) := by
  unfold Segment.covers
  infer_instance

def matchAround (iS1 iE1 iS2 iE2 i j : Nat) : Segment :=
  let back := p.extendBack (min (i - iS1) (j - 1 - iS2)) (i - 1) (j - 1 - 1)
  let ahead := p.extendForward (min (iE1 - (i + 1)) (iE2 - j)) (i + 1) j
  { iSX := i - back, iSY := j - 1 - back, iEX := i + 1 + ahead, iEY := j + ahead }

def score (iS1 iE1 iS2 iE2 : Nat) (m : Segment) : Int :=
  let span : Int := ((iE1 : Int) - iS1) + ((iE2 : Int) - iS2)
  let mid : Int := (iE1 + iS1) / 2
  let skew : Int := (((m.iSX : Int) - iS1) - ((m.iSY : Int) - iS2)).natAbs
  let dist : Int := ((m.iSX + m.iEX : Int) / 2 - mid).natAbs
  ((m.iEX : Int) - m.iSX) * span - (skew + dist)

/-- What becomes of the search with the line `i` found at position `j`, or not found. -/
def recordMatch (iS1 iE1 iS2 iE2 : Nat) (s : Search) (i j : Nat) : Search :=
  if j = 0 then s
  else if s.best.covers i j then s
  else if s.prev.covers i j then s
  else
    let m := p.matchAround iS1 iE1 iS2 iE2 i j
    let sc := score iS1 iE1 iS2 iE2 m
    if sc > s.bestScore then { s with best := m, bestScore := sc }
    else if m.iEX > s.prev.iEX then { s with prev := m }
    else s

def searchStep (iS1 iE1 iS2 iE2 : Nat) (s : Search) (i : Nat) : Search :=
  let bucket := (p.aFrom.lines.getD i default).h.toNat % p.nTo
  p.recordMatch iS1 iE1 iS2 iE2 s i (p.chainWalk iS2 iE2 i 11 (p.aTo.iHash bucket))

def longestCommonSequence (iS1 iE1 iS2 iE2 : Nat) : Segment :=
  let start : Segment := { iSX := iS1, iEX := iS1, iSY := iS2, iEY := iS2 }
  let s := (List.range' iS1 (iE1 - iS1)).foldl (p.searchStep iS1 iE1 iS2 iE2)
    { best := start, prev := start, bestScore := -10000 }
  if s.best.iSX = s.best.iEX ∧ (iE1 - iS1) * (iE2 - iS2) < 400 then
    p.optimalLCS iS1 iE1 iS2 iE2
  else s.best

/-- `appendTriple`.  The triples stand with the newest one first. -/
def appendTriple (aEdit : List Edit) (nCopy nDel nIns : Nat) : List Edit :=
  let new : Edit := { copy := nCopy, del := nDel, ins := nIns }
  match aEdit with
  | [] => [new]
  | last :: older =>
    if last.ins = 0 ∧ last.del = 0 then
      { copy := last.copy + nCopy, del := last.del + nDel, ins := last.ins + nIns } :: older
    else if last.ins = 0 ∧ nCopy = 0 then
      { last with del := last.del + nDel, ins := last.ins + nIns } :: older
    else if nCopy = 0 ∧ nDel = 0 then
      { last with ins := last.ins + nIns } :: older
    else new :: last :: older

/-- `diff_step`.  Both calls have fewer lines of the first file than the call they are in, which
`fuel` counts. -/
def diffStep : Nat → Nat → Nat → Nat → Nat → List Edit → List Edit
  | 0, _, _, _, _, aEdit => aEdit
  | fuel + 1, iS1, iE1, iS2, iE2, aEdit =>
    if iE1 ≤ iS1 then
      -- the first segment is empty
      if iE2 > iS2 then appendTriple aEdit 0 0 (iE2 - iS2) else aEdit
    else if iE2 ≤ iS2 then
      -- the second segment is empty
      appendTriple aEdit 0 (iE1 - iS1) 0
    else
      let m := p.longestCommonSequence iS1 iE1 iS2 iE2
      if m.iEX > m.iSX then
        let before := diffStep fuel iS1 m.iSX iS2 m.iSY aEdit
        diffStep fuel m.iEX iE1 m.iEY iE2 (appendTriple before (m.iEX - m.iSX) 0 0)
      else appendTriple aEdit 0 (iE1 - iS1) (iE2 - iS2)

def trimFooter : Nat → Nat → Nat × Nat
  | iE1 + 1, iE2 + 1 => if p.same iE1 iE2 then trimFooter iE1 iE2 else (iE1 + 1, iE2 + 1)
  | iE1, iE2 => (iE1, iE2)

/-- `diff_all`, without the triple of zeros at the end. -/
def diffAll : List Edit :=
  let iE := p.trimFooter p.nFrom p.nTo
  let iS := p.extendForward (min iE.1 iE.2) 0 0
  let header := if iS > 0 then appendTriple [] iS 0 0 else []
  let middle := p.diffStep (iE.1 + 1) iS iE.1 iS iE.2 header
  (if iE.1 < p.nFrom then appendTriple middle (p.nFrom - iE.1) 0 0 else middle).reverse

end DContext

def textDiff (pA pB : List UInt8) : Option (List Edit) :=
  match breakIntoLines pA, breakIntoLines pB with
  | some aFrom, some aTo =>
    some (DContext.diffAll { aFrom := aFrom, aTo := aTo } ++ [Edit.zero])
  | _, _ => none

end NextBSD.Libpkg
