import NextBSD.Zsh.HistFile

/-!
# hist.c: the history of a session

A session shares its history (`SHAREHISTORY`), `HISTORY_IGNORE` and the options that remove
duplicates are not set, and `HISTSIZE` and `SAVEHIST` are never reached.  Memory is found and reads
are not interrupted.
-/

namespace NextBSD.Zsh.History

/-! ## Entries -/

structure HistData where
  nam : Bytes
  stim : Int
  ftim : Int
  old : Bool
  foreign : Bool
  tmpstore : Bool
  nowrite : Bool
  deriving DecidableEq, Repr

/-- `struct histent`.  No two entries of a session have had the same address. -/
structure Histent extends HistData where
  addr : Nat
  histnum : Nat
  dup : Bool
  deriving DecidableEq, Repr

/-- `histstrcmp(str1, str2) == 0`, after the blanks in front. -/
def histstrcmpLoop : Bytes → Bytes → Bool
  | [], [] => true
  | [], _ :: _ => false
  | _ :: _, [] => false
  | c :: str1, d :: str2 =>
    if inblank c then
      if inblank d then histstrcmpLoop (str1.dropWhile inblank) (str2.dropWhile inblank)
      else false
    else if c = d then histstrcmpLoop str1 str2
    else false
termination_by str1 => str1.length
decreasing_by
  · exact Nat.lt_succ_of_le (List.dropWhile_sublist inblank).length_le
  · exact Nat.lt_succ_self _

def histstrcmp (str1 str2 : Bytes) : Bool :=
  histstrcmpLoop (str1.dropWhile inblank) (str2.dropWhile inblank)

/-- `histtab`: the texts, with the entry each belongs to. -/
abbrev Histtab := List (Bytes × Nat)

/-- The text without the blanks in front, and with one space for every other run of blanks. -/
def collapse (inRun : Bool) : Bytes → Bytes
  | [] => []
  | c :: s =>
    if inblank c then if inRun then collapse true s else 32 :: collapse true s
    else c :: collapse false s

theorem collapse_dropWhile (s : Bytes) :
    collapse true s = collapse false (s.dropWhile inblank) := by
  induction s with
  | nil => rfl
  | cons c s ih =>
    by_cases hc : inblank c = true
    · rw [List.dropWhile_cons_of_pos hc, collapse, if_pos hc, if_pos rfl, ih]
    · rw [List.dropWhile_cons_of_neg hc, collapse, if_neg hc, collapse, if_neg hc]

theorem histstrcmpLoop_iff (str1 str2 : Bytes) :
    histstrcmpLoop str1 str2 = true ↔ collapse false str1 = collapse false str2 := by
  have hspace {c : UInt8} (hc : inblank c ≠ true) : c ≠ 32 := by
    rintro rfl
    exact hc rfl
  fun_induction histstrcmpLoop str1 str2 with
  | case1 => exact ⟨fun _ => rfl, fun _ => rfl⟩
  | case2 d str2 =>
    refine ⟨nofun, fun h => ?_⟩
    by_cases hd : inblank d = true
    · rw [collapse, collapse, if_pos hd] at h
      exact absurd h.symm (List.cons_ne_nil _ _)
    · rw [collapse, collapse, if_neg hd] at h
      exact absurd h.symm (List.cons_ne_nil _ _)
  | case3 c str1 =>
    refine ⟨nofun, fun h => ?_⟩
    by_cases hc : inblank c = true
    · rw [collapse, collapse, if_pos hc] at h
      exact absurd h (List.cons_ne_nil _ _)
    · rw [collapse, collapse, if_neg hc] at h
      exact absurd h (List.cons_ne_nil _ _)
  | case4 c str1 d str2 hc hd ih =>
    refine Iff.trans ih ?_
    rw [collapse, collapse, if_pos hc, if_pos hd, ← collapse_dropWhile, ← collapse_dropWhile]
    exact ⟨fun h => congrArg (32 :: ·) h, fun h => (List.cons.inj h).2⟩
  | case5 c str1 d str2 hc hd =>
    rw [collapse, collapse, if_pos hc, if_neg hd]
    exact ⟨nofun, fun h => absurd (List.cons.inj h).1.symm (hspace hd)⟩
  | case6 str1 c str2 hc ih =>
    refine Iff.trans ih ?_
    rw [collapse, collapse, if_neg hc, if_neg hc]
    exact ⟨fun h => congrArg (c :: ·) h, fun h => (List.cons.inj h).2⟩
  | case7 c str1 d str2 hc hne =>
    refine ⟨nofun, fun h => ?_⟩
    by_cases hd : inblank d = true
    · rw [collapse, collapse, if_neg hc, if_pos hd] at h
      exact absurd (List.cons.inj h).1 (hspace hc)
    · rw [collapse, collapse, if_neg hc, if_neg hd] at h
      exact absurd (List.cons.inj h).1 hne

theorem histstrcmp_iff (str1 str2 : Bytes) :
    histstrcmp str1 str2 = true ↔ collapse true str1 = collapse true str2 := by
  unfold histstrcmp
  rw [histstrcmpLoop_iff, collapse_dropWhile, collapse_dropWhile]

theorem histstrcmp_self (str : Bytes) : histstrcmp str str = true :=
  (histstrcmp_iff str str).mpr rfl

def addhashnode2 (tab : Histtab) (nam : Bytes) (addr : Nat) : Option (Bytes × Nat) × Histtab :=
  match tab with
  | [] => (none, [(nam, addr)])
  | hp :: tab =>
    if histstrcmp hp.1 nam then (some hp, (nam, addr) :: tab)
    else
      let (oldnode, tab) := addhashnode2 tab nam addr
      (oldnode, hp :: tab)

def removehashnode (tab : Histtab) (nam : Bytes) : Histtab :=
  tab.eraseP fun hp => histstrcmp hp.1 nam

/-- `struct histfile_stats`. -/
structure Lasthist where
  text : Option Bytes
  stim : Int
  mtim : Int
  fpos : Nat
  fsiz : Nat
  next_write_ev : Nat
  deriving DecidableEq, Repr

structure Session where
  ring : List Histent
  histtab : Histtab
  curhist : Nat
  lasthist : Lasthist
  nextAddr : Nat
  deriving DecidableEq, Repr

def Session.empty : Session where
  ring := []
  histtab := []
  curhist := 0
  lasthist := { text := none, stim := 0, mtim := 0, fpos := 0, fsiz := 0, next_write_ev := 0 }
  nextAddr := 0

structure HistFile where
  bytes : Bytes
  mtime : Int
  deriving DecidableEq, Repr

def freehistnode (s : Session) (he : Histent) : Session :=
  { s with
    histtab := if he.dup || he.tmpstore then s.histtab else removehashnode s.histtab he.nam
    ring := s.ring.filter fun e => e.addr ≠ he.addr }

def dropTop (s : Session) : Session :=
  match s.ring.getLast? with
  | some he => if he.tmpstore then { freehistnode s he with curhist := s.curhist - 1 } else s
  | none => s

def prepnexthistent (s : Session) (data : HistData) : Session × Histent :=
  let s := dropTop s
  let he : Histent :=
    { toHistData := data, addr := s.nextAddr, histnum := s.curhist + 1, dup := false }
  ({ s with ring := s.ring ++ [he], curhist := s.curhist + 1, nextAddr := s.nextAddr + 1 }, he)

def markDup (addr : Nat) (e : Histent) : Histent :=
  if e.addr = addr then { e with dup := true } else e

/-- `he` is on top of the ring, so that the entry before it is `he->up`. -/
def addhistnode (s : Session) (he : Histent) : Session :=
  let (oldnode, tab) := addhashnode2 s.histtab he.nam he.addr
  match oldnode with
  | none => { s with histtab := tab }
  | some oldnode =>
    if oldnode.2 = he.addr then { s with histtab := tab }
    else if he.foreign ∧ s.ring.dropLast.getLast?.map (·.addr) = some oldnode.2 then
      { s with histtab := (addhashnode2 tab oldnode.1 oldnode.2).2, ring := s.ring.map (markDup he.addr) }
    else { s with histtab := tab, ring := s.ring.map (markDup oldnode.2) }

def readAdd (fast : Bool) (tim : Int) (s : Session) (fpos : Nat) (stim ftim : Int) (pt : Bytes) :
    Session :=
  let s := { s with lasthist := { s.lasthist with fpos := fpos, stim := stim } }
  let (s, he) := prepnexthistent s
    { nam := pt
      stim := if stim = 0 then tim else stim
      ftim := if stim = 0 then tim else if ftim < stim then stim + ftim else ftim
      old := true, foreign := fast, tmpstore := false, nowrite := false }
  let s := addhistnode s he
  match s.ring.getLast? with
  | some he => if he.dup then { freehistnode s he with curhist := s.curhist - 1 } else s
  | none => s

/-- The loop over the entries, and the last text that it has put into the ring.  With `searching`
it passes over entries that are older than the one it knows. -/
def readLoop (fast : Bool) (tim : Int) (s : Session) (searching : Bool) (fpos : Nat)
    (start : Option Bytes) : List (Bytes × Nat) → Session × Option Bytes
  | [] => (s, start)
  | (buf, readbytes) :: rest =>
    let (stim, ftim, pt) := readEntry buf
    if searching ∧ stim < s.lasthist.stim then
      readLoop fast tim s true (fpos + readbytes) start rest
    else
      readLoop fast tim (readAdd fast tim s fpos stim ftim pt) false (fpos + readbytes) (some pt)
        rest

/-- `searching > 0`: the entry at `lasthist.fpos` is the one that was seen last, or the file is read
from its beginning. -/
def readFrom (tim : Int) (s : Session) (bytes text : Bytes) : Session × Option Bytes :=
  let fpos := s.lasthist.fpos
  match readhistlines [] 0 (fileLines (bytes.drop fpos)) with
  | [] => (s, none)
  | (buf, readbytes) :: rest =>
    let (stim, _, pt) := readEntry buf
    if stim = s.lasthist.stim ∧ histstrcmp pt text then
      readLoop true tim s false (fpos + readbytes) none rest
    else readLoop true tim s true (fpos + readbytes) none (readhistlines [] 0 (fileLines bytes))

def readEntries (fast : Bool) (tim : Int) (s : Session) (bytes : Bytes) : Session × Option Bytes :=
  let lines := readhistlines [] 0 (fileLines bytes)
  match fast, s.lasthist.text with
  | true, some text =>
    if s.lasthist.fpos < s.lasthist.fsiz then readFrom tim s bytes text
    else readLoop true tim s true 0 none lines
  | _, _ => readLoop fast tim s false 0 none lines

/-- `lasthist.text` is set when an entry was put into the ring. -/
def setText (s : Session) (start : Option Bytes) : Session :=
  match start with
  | some pt => { s with lasthist := { s.lasthist with text := some pt } }
  | none => s

/-- `readhistfile` with `HFILE_USE_OPTIONS`, and with or without `HFILE_FAST`. -/
def readhistfile (fast : Bool) (tim : Int) (s : Session) (file : HistFile) : Session :=
  if file.bytes.length = 0 then s
  else if fast ∧ s.lasthist.fsiz = file.bytes.length ∧ s.lasthist.mtim = file.mtime then s
  else
    let s :=
      if fast then
        { s with lasthist := { s.lasthist with fsiz := file.bytes.length, mtim := file.mtime } }
      else s
    let (s, start) := readEntries fast tim s file.bytes
    setText s start

/-- `gethistent(ev, GETHIST_DOWNWARD)`: the entry, and those below it. -/
def gethistent (ring : List Histent) (ev : Nat) : List Histent :=
  match ring.head?, ring.getLast? with
  | some oldest, some top =>
    if (ev : Int) - oldest.histnum < (top.histnum : Int) - ev then
      ring.dropWhile fun he => he.histnum < ev
    else
      let above := (ring.reverse.takeWhile fun he => ev < he.histnum).reverse
      match ring.reverse.dropWhile fun he => ev < he.histnum with
      | he :: _ => if he.histnum = ev then he :: above else above
      | [] => above
  | _, _ => []

def markOld (addr : Nat) (e : Histent) : Histent :=
  if e.addr = addr then { e with old := true } else e

/-- The loop that writes.  `ftell opened written` is the position of the stream after `written`
bytes, when the file had `opened` bytes. -/
def writeLoop (ftell : Nat → Nat → Nat) (opened : Nat) (s : Session) (out : Bytes)
    (start : Option Bytes) : List Histent → Session × Bytes × Option Bytes
  | [] => (s, out, start)
  | he :: rest =>
    if s.curhist < he.histnum then (s, out, start)
    else if he.tmpstore || (he.old || he.nowrite) then writeLoop ftell opened s out start rest
    else
      let lasthist := { s.lasthist with
        next_write_ev := he.histnum + 1, fpos := ftell opened out.length, stim := he.stim }
      writeLoop ftell opened { s with ring := s.ring.map (markOld he.addr), lasthist := lasthist }
        (out ++ histLine he.stim he.ftim he.nam) (some he.nam) rest

/-- `lasthist.next_write_ev` goes past the entries that were written. -/
def skipOld (s : Session) (l : List Histent) : Session :=
  match (l.takeWhile (·.old)).getLast? with
  | some e => { s with lasthist := { s.lasthist with next_write_ev := e.histnum + 1 } }
  | none => s

/-- The end of `savehistfile`, when something was written.  The file has a new time. -/
def finishSave (mtime : Int) (s : Session) (file : HistFile) (out : Bytes) (start : Option Bytes) :
    Session × HistFile :=
  match start with
  | some nam =>
    ({ s with lasthist := { s.lasthist with
        fsiz := (file.bytes ++ out).length, mtim := mtime, text := some nam } },
      { bytes := file.bytes ++ out, mtime := mtime })
  | none => (s, file)

/-- `savehistfile` with `HFILE_USE_OPTIONS | HFILE_FAST`. -/
def savehistfile (ftell : Nat → Nat → Nat) (mtime : Int) (s : Session) (file : HistFile) :
    Session × HistFile :=
  let he := gethistent s.ring s.lasthist.next_write_ev
  let (s, out, start) :=
    writeLoop ftell file.bytes.length (skipOld s he) [] none (he.dropWhile (·.old))
  finishSave mtime s file out start

inductive Save where
  | no
  | normal
  /-- Deleted after the next line. -/
  | temporary
  /-- Kept in the session, and not written. -/
  | noWrite
  deriving DecidableEq, Repr

/-- A command line is complete.  The clock is read at the start, when the entry is made, and by the
system when the file is written. -/
structure Completion where
  chline : HistText
  /-- `chwordpos <= 2 && !hist_keep_comment` -/
  noWords : Bool
  /-- `should_ignore_line` -/
  ignored : Bool
  hookret : Int
  /-- `HISTFLAG_RECALL` -/
  recalled : Bool
  tim : Int
  stim : Int
  mtime : Int

def Completion.saved (c : Completion) : Save × HistText :=
  if c.chline.bytes = [] then (.no, c.chline)
  else
    let (save, chline) :=
      if c.chline.bytes.getLast? = some 10 then
        if c.chline.bytes.length = 1 then (.no, c.chline) else (.normal, c.chline.dropNewline)
      else (.normal, c.chline)
    let save :=
      if c.noWords then .no
      else if c.ignored then .temporary
      else if c.hookret = 2 then .noWrite
      else if c.hookret ≠ 0 then .temporary
      else save
    (if c.recalled then .no else save, chline)

def dropTemporary (s : Session) : Session :=
  match s.ring.reverse.find? fun he => !he.foreign with
  | some he =>
    if he.tmpstore then
      freehistnode
        (if s.ring.getLast? = some he then { s with curhist := s.curhist - 1 } else s) he
    else s
  | none => s

def addLine (save : Save) (stim : Int) (s : Session) (chline : Bytes) : Session :=
  let (s, he) := prepnexthistent s
    { nam := chline, stim := stim, ftim := 0, old := false, foreign := false
      tmpstore := decide (save = .temporary), nowrite := decide (save = .noWrite) }
  if save = .temporary then s else addhistnode s he

def hend (ftell : Nat → Nat → Nat) (c : Completion) (s : Session) (file : HistFile) :
    Session × HistFile :=
  let s := readhistfile true c.tim s file
  let (save, chline) := c.saved
  let s := if save ≠ .no ∨ chline.bytes.head? = some 32 then dropTemporary s else s
  let s := if save ≠ .no then addLine save c.stim s chline.bytes else s
  savehistfile ftell c.mtime s file

end NextBSD.Zsh.History
