import NextBSD.Library.CircularList
import NextBSD.Zsh.History

/-!
# hist.c: the ring of the history in memory

The entries are linked in a ring, and those that are not marked are in a table too.  The fields of
the entries are one function each.  Memory is found, and a new entry has an address of its own.
-/

namespace NextBSD.Zsh.HistMemory

open CircularList
open History (Histtab Save histstrcmp)

abbrev Ptr := Nat

def curline : Ptr := 0

structure Flags where
  makeunique : Bool
  old : Bool
  read : Bool
  dup : Bool
  foreign : Bool
  tmpstore : Bool
  nowrite : Bool
  deriving DecidableEq, Repr

/-- `struct histent` without its links. -/
structure Node where
  nam : Bytes
  flags : Flags
  histnum : Int
  deriving DecidableEq, Repr

def Node.zero : Node where
  nam := []
  flags :=
    { makeunique := false, old := false, read := false, dup := false, foreign := false
      tmpstore := false, nowrite := false }
  histnum := 0

structure Hist where
  links : Links Ptr
  node : Ptr → Node
  /-- No entry has been allocated from here on. -/
  fresh : Ptr
  hist_ring : Option Ptr
  histlinect : Nat
  curhist : Int
  histsiz : Nat
  savehistsiz : Nat
  hist_ignore_all_dups : Bool
  histtab : Histtab
  /-- `static Histent next` -/
  next : Option Ptr
  max_unique_ct : Nat

def Hist.empty : Hist where
  links := { up := id, down := id }
  node _ := Node.zero
  fresh := 1
  hist_ring := none
  histlinect := 0
  curhist := 0
  histsiz := 30
  savehistsiz := 0
  hist_ignore_all_dups := false
  histtab := []
  next := none
  max_unique_ct := 0

structure Options where
  ignoredups : Bool
  ignorealldups : Bool
  expiredupsfirst : Bool
  deriving DecidableEq, Repr

def Hist.setNode (s : Hist) (he : Ptr) (f : Node → Node) : Hist :=
  { s with node := Function.update s.node he (f (s.node he)) }

def Hist.flags (s : Hist) (he : Ptr) : Flags := (s.node he).flags

def Hist.setFlags (s : Hist) (he : Ptr) (f : Flags → Flags) : Hist :=
  s.setNode he fun n => { n with flags := f n.flags }

/-- `curline.histnum = histnum` -/
def Hist.numberCurline (s : Hist) (histnum : Int) : Hist :=
  s.setNode curline fun n => { n with histnum := histnum }

/-- `he->histnum = ++curhist` -/
def Hist.number (s : Hist) (he : Ptr) : Hist :=
  { s with curhist := s.curhist + 1 }.setNode he fun n => { n with histnum := s.curhist + 1 }

/-- `freehistdata`; the text is removed from the table, whichever entry has it there. -/
def freehistdata (unlink : Bool) (he : Ptr) (s : Hist) : Hist :=
  if he = curline then s
  else
    let s :=
      if (s.flags he).dup || (s.flags he).tmpstore then s
      else { s with histtab := History.removehashnode s.histtab (s.node he).nam }
    if unlink then
      let s := { s with histlinect := s.histlinect - 1 }
      if s.histlinect = 0 then { s with hist_ring := none }
      else
        let s := if s.hist_ring = some he then { s with hist_ring := some (s.links.up he) } else s
        { s with links := s.links.unlink he }
    else s

def freehistnode (he : Ptr) (s : Hist) : Hist := freehistdata true he s

def addhistnode (he : Ptr) (s : Hist) : Hist :=
  let nam := (s.node he).nam
  let (oldnode, tab) := History.addhashnode2 s.histtab nam he
  let s := { s with histtab := tab }
  match oldnode with
  | none => s.setFlags he fun f => { f with makeunique := false }
  | some (oldnam, oldnode) =>
    if oldnode = he then s.setFlags he fun f => { f with makeunique := false }
    else if (s.flags he).makeunique || ((s.flags he).foreign && oldnode = s.links.up he) then
      -- the table gets the old entry back
      { s with histtab := (History.addhashnode2 tab oldnam oldnode).2 }.setFlags he fun f =>
        { f with dup := true, makeunique := false }
    else
      let s := s.setFlags oldnode fun f => { f with dup := true }
      if s.hist_ignore_all_dups then freehistnode oldnode s else s

def linkcurline (s : Hist) : Hist :=
  let s :=
    match s.hist_ring with
    | none => { s with links := s.links.alone curline, hist_ring := some curline }
    | some top => { s with links := s.links.insert top curline, hist_ring := some curline }
  s.number curline

def unlinkcurline (s : Hist) : Hist :=
  let s := { s with links := s.links.unlink curline }
  let s :=
    if s.hist_ring = some curline then
      { s with hist_ring := if s.histlinect = 0 then none else some (s.links.up curline) }
    else s
  { s with curhist := s.curhist - 1 }

def up_histent (s : Hist) (he : Ptr) : Option Ptr :=
  if s.hist_ring = some (s.links.up he) then none else some (s.links.up he)

/-- The search of `putoldhistentryontop` for an entry that is a duplicate, with the entry behind it
and what is left of `max_unique_ct`. -/
def searchDup (s : Hist) (top : Ptr) : Nat → Ptr → Ptr → Ptr × Ptr × Nat
  | 0, _, _ => (s.links.down top, top, 0)
  | max_unique_ct + 1, he, next =>
    if he = top then (s.links.down top, top, 0)
    else if (s.flags next).dup then (next, s.links.down next, max_unique_ct)
    else searchDup s top max_unique_ct next (s.links.down next)

/-- `putoldhistentryontop`, for a ring that is not empty. -/
def putoldhistentryontop (o : Options) (keep_going : Bool) (s : Hist) : Hist :=
  match s.hist_ring with
  | none => s
  | some top =>
    match if keep_going then s.next else some (s.links.down top) with
    | none => s
    | some he =>
      let (he, next, max_unique_ct) :=
        if o.expiredupsfirst && !(s.flags he).dup then
          searchDup s top (if keep_going then s.max_unique_ct else s.savehistsiz) he
            (s.links.down he)
        else (he, s.links.down he, s.max_unique_ct)
      { s with
        links := if he ≠ s.links.down top then (s.links.unlink he).insert top he else s.links
        hist_ring := some he
        next := some next
        max_unique_ct := max_unique_ct }

def dropTop (s : Hist) : Hist :=
  match s.hist_ring with
  | some top =>
    if (s.flags top).tmpstore then freehistnode top { s with curhist := s.curhist - 1 } else s
  | none => s

/-- The entry on top that is filled next: another one, or the old one that can be spared. -/
def takeEntry (o : Options) (s : Hist) : Ptr × Hist :=
  match s.hist_ring with
  | none =>
    let he := s.fresh
    (he, { s with
      links := s.links.alone he, node := Function.update s.node he Node.zero, fresh := he + 1
      hist_ring := some he, histlinect := s.histlinect + 1 })
  | some top =>
    if s.histlinect < s.histsiz then
      let he := s.fresh
      (he, { s with
        links := s.links.insert top he, node := Function.update s.node he Node.zero
        fresh := he + 1, hist_ring := some he, histlinect := s.histlinect + 1 })
    else
      let s := putoldhistentryontop o false s
      let he := s.hist_ring.getD top
      (he, freehistdata false he s)

def prepnexthistent (o : Options) (s : Hist) : Ptr × Hist :=
  let curline_in_ring := s.hist_ring = some curline
  let s := if curline_in_ring then unlinkcurline s else s
  let (he, s) := takeEntry o (dropTop s)
  let s := s.number he
  (he, if curline_in_ring then linkcurline s else s)

/-- The loop of `resizehistents`, with `none` when it does not come to an end. -/
def resizeLoop (o : Options) : Nat → Hist → Option Hist
  | 0, s => if s.histsiz < s.histlinect then none else some s
  | n + 1, s =>
    if s.histsiz < s.histlinect then
      let s := putoldhistentryontop o true s
      match s.hist_ring with
      | some top => resizeLoop o n (freehistnode top s)
      | none => none
    else some s

def resizehistents (o : Options) (s : Hist) : Option Hist :=
  if s.histsiz < s.histlinect then
    let old := putoldhistentryontop o false s
    match old.hist_ring with
    | some top => resizeLoop o s.histlinect (freehistnode top old)
    | none => none
  else some s

def histsizesetfn (o : Options) (v : Int) (s : Hist) : Option Hist :=
  resizehistents o { s with histsiz := if v < 1 then 1 else v.toNat }

def savehistsizesetfn (v : Int) (s : Hist) : Hist :=
  { s with savehistsiz := if v < 0 then 0 else v.toNat }

/-- The loop of `histremovedups`, with `none` when it goes round more than once. -/
def removeDups : Nat → Option Ptr → Hist → Option Hist
  | _, none, s => some s
  | 0, some _, _ => none
  | n + 1, some he, s =>
    removeDups n (up_histent s he) (if (s.flags he).dup then freehistnode he s else s)

def histremovedups (s : Hist) : Option Hist := removeDups s.histlinect s.hist_ring s

/-- What `readhistfile` is told, and the lines that it comes to put into the ring. -/
structure Reading where
  /-- `HFILE_FAST` -/
  fast : Bool
  /-- `HFILE_SKIPOLD` -/
  skipold : Bool
  /-- `hist_skip_flags` is `HIST_FOREIGN`. -/
  skipforeign : Bool
  lines : List Bytes

def Reading.newflags (r : Reading) (hist_ignore_all_dups : Bool) : Flags where
  makeunique := r.skipold || (hist_ignore_all_dups && (r.fast && r.skipforeign))
  old := true
  read := true
  dup := false
  foreign := r.fast
  tmpstore := false
  nowrite := false

def readLine (o : Options) (newflags : Flags) (s : Hist) (pt : Bytes) : Hist :=
  let (he, s) := prepnexthistent o s
  let s := addhistnode he (s.setNode he fun n => { n with nam := pt, flags := newflags })
  if (s.flags he).dup then
    let s := freehistnode he s
    { s with curhist := s.curhist - 1 }
  else s

def readhistfile (o : Options) (r : Reading) (s : Hist) : Hist :=
  r.lines.foldl (readLine o (r.newflags s.hist_ignore_all_dups)) s

/-- The newest entry that is not foreign; `none` when the search goes round more than once. -/
def newestLocal (s : Hist) : Nat → Option Ptr → Option (Option Ptr)
  | _, none => some none
  | 0, some _ => none
  | n + 1, some he =>
    if (s.flags he).foreign then newestLocal s n (up_histent s he) else some (some he)

structure Completion where
  save : Save
  /-- The line as it is saved. -/
  chline : Bytes
  /-- The line begins with a space. -/
  space : Bool
  /-- What is read with `SHAREHISTORY`. -/
  shared : Option Reading
  /-- The entries that are written to the file at the end. -/
  written : List Ptr

def Completion.newflags (c : Completion) : Flags where
  makeunique := false
  old := false
  read := false
  dup := false
  foreign := false
  tmpstore := decide (c.save = .temporary)
  nowrite := decide (c.save = .noWrite)

def dropTemporary (s : Hist) : Option Hist :=
  (newestLocal s s.histlinect s.hist_ring).map fun he =>
    match he with
    | some he =>
      if (s.flags he).tmpstore then
        freehistnode he
          (if s.hist_ring = some he then { s.numberCurline s.curhist with curhist := s.curhist - 1 }
          else s)
      else s
    | none => s

/-- The entry that is overwritten by a line that compares the same, or a new one; and what it keeps
of its flags. -/
def nextEntry (o : Options) (c : Completion) (s : Hist) : Ptr × Flags × Hist :=
  match s.hist_ring with
  | some top =>
    if (o.ignoredups || o.ignorealldups) ∧ c.save = .normal ∧
        histstrcmp c.chline (s.node top).nam then
      (top, { c.newflags with old := (s.flags top).old },
        (freehistdata false top s).numberCurline s.curhist)
    else
      let (he, s) := prepnexthistent o s
      (he, c.newflags, s)
  | none =>
    let (he, s) := prepnexthistent o s
    (he, c.newflags, s)

def saveLine (o : Options) (c : Completion) (s : Hist) : Hist :=
  let (he, newflags, s) := nextEntry o c s
  let s := s.setNode he fun n => { n with nam := c.chline, flags := newflags }
  if newflags.tmpstore then s else addhistnode he s

def markOld (written : List Ptr) (s : Hist) : Hist :=
  written.foldl (fun s he => s.setFlags he fun f => { f with old := true }) s

def noticeOption (o : Options) (s : Hist) : Option Hist :=
  if s.hist_ignore_all_dups ≠ o.ignorealldups then
    let s := { s with hist_ignore_all_dups := o.ignorealldups }
    if o.ignorealldups then histremovedups s else some s
  else some s

def readShared (o : Options) (c : Completion) (s : Hist) : Hist :=
  match c.shared with
  | some r =>
    let s := readhistfile o r s
    s.numberCurline (s.curhist + 1)
  | none => s

def hend (o : Options) (c : Completion) (s : Hist) : Option Hist :=
  (noticeOption o (unlinkcurline s)).bind fun s =>
    let s := readShared o c s
    (if c.save ≠ .no ∨ c.space then dropTemporary s else some s).map fun s =>
      markOld c.written (if c.save ≠ .no then saveLine o c s else s)

inductive Edit where
  | readhistfile (o : Options) (r : Reading)
  | histsize (o : Options) (v : Int)
  | savehist (v : Int)

def Edit.run (s : Hist) : Edit → Option Hist
  | .readhistfile o r => some (HistMemory.readhistfile o r s)
  | .histsize o v => histsizesetfn o v s
  | .savehist v => some (savehistsizesetfn v s)

inductive Op where
  | edit (e : Edit)
  /-- `hbegin`, what happens while the line is edited, and `hend`. -/
  | line (edits : List Edit) (o : Options) (c : Completion)

def Op.run (s : Hist) : Op → Option Hist
  | .edit e => e.run s
  | .line edits o c => (edits.foldlM Edit.run (linkcurline s)).bind (hend o c)

def session (ops : List Op) : Option Hist := ops.foldlM Op.run Hist.empty

end NextBSD.Zsh.HistMemory
