import NextBSD.Library.RecordFile
import Mathlib.Data.Nat.Notation

/-!
# timestamp.c: the tickets of a user

A ticket is a record of the user's time stamp file.  The file is a list of bytes, and how an
entry is laid out in it is left to the machine.  Locks are not modelled: the calls of a run
follow one another.  Reads and writes of the file succeed.
-/

namespace NextBSD.Sudoers

open RecordFile

structure Timespec where
  tvSec : Int
  tvNsec : Int
  deriving DecidableEq, Repr

def sudoTimespecclear : Timespec := { tvSec := 0, tvNsec := 0 }

def sudoTimespecisset (ts : Timespec) : Bool := ts.tvSec ≠ 0 || ts.tvNsec ≠ 0

/-- `sudo_timespeccmp(ts1, ts2, <)`. -/
def sudoTimespecLt (ts1 ts2 : Timespec) : Bool :=
  if ts1.tvSec = ts2.tvSec then ts1.tvNsec < ts2.tvNsec else ts1.tvSec < ts2.tvSec

/-- `sudo_timespecsub`.  The loop borrows a second until the nanoseconds are not negative. -/
def sudoTimespecsub (ts1 ts2 : Timespec) : Timespec :=
  let tvSec := ts1.tvSec - ts2.tvSec
  let tvNsec := ts1.tvNsec - ts2.tvNsec
  if tvNsec < 0 then
    { tvSec := tvSec + tvNsec / 1000000000, tvNsec := tvNsec % 1000000000 }
  else { tvSec := tvSec, tvNsec := tvNsec }

def timespecValid (ts : Timespec) : Bool := 0 ≤ ts.tvSec && 0 ≤ ts.tvNsec && ts.tvNsec < 1000000000

inductive TsType where
  | global
  | tty
  | ppid
  | lockexcl
  | other (type : Nat)
  deriving DecidableEq, Repr

structure TsFlags where
  disabled : Bool
  anyuid : Bool
  deriving DecidableEq, Repr

def TS_VERSION : Nat := 2

/-- `struct timestamp_entry`.  The union `u` is a terminal or a process by the type. -/
structure TimestampEntry where
  version : Nat
  size : Nat
  type : TsType
  flags : TsFlags
  authUid : Nat
  sid : Int
  startTime : Timespec
  ts : Timespec
  u : Int
  deriving DecidableEq, Repr

def TimestampEntry.zero : TimestampEntry where
  version := 0
  size := 0
  type := .other 0
  flags := { disabled := false, anyuid := false }
  authUid := 0
  sid := 0
  startTime := sudoTimespecclear
  ts := sudoTimespecclear
  u := 0

structure EntryLayout (Byte : Type) where
  zero : Byte
  sizeofEntry : Nat
  /-- `sizeof(struct timestamp_entry_v1)`. -/
  sizeofEntryV1 : Nat
  bytes : TimestampEntry → List Byte
  /-- A cleared entry over which the bytes were read. -/
  ofBytes : List Byte → TimestampEntry
  length_bytes : ∀ entry, (bytes entry).length = sizeofEntry
  ofBytes_bytes : ∀ entry, ofBytes (bytes entry) = entry
  sizeofEntryV1_pos : 0 < sizeofEntryV1
  sizeofEntryV1_lt : sizeofEntryV1 < sizeofEntry

variable {Byte : Type} (L : EntryLayout Byte)

def tsMatchRecord (key entry : TimestampEntry) : Bool :=
  if entry.version ≠ key.version then false
  else if ¬ key.flags.anyuid ∧ entry.authUid ≠ key.authUid then false
  else if entry.type ≠ key.type then false
  else
    match entry.type with
    | .global => true
    | .ppid => entry.u = key.u && entry.startTime = key.startTime
    | .tty => entry.u = key.u && entry.startTime = key.startTime
    | .lockexcl | .other _ => false

/-- `ts_find_record` from an offset on: the matching record, and the offset where it stops. -/
def tsFindRecord (file : List Byte) (key : TimestampEntry) (offset : Nat) :
    Option TimestampEntry × Nat :=
  let buf := pread file offset L.sizeofEntry
  if hbuf : buf.length = L.sizeofEntry then
    let cur := L.ofBytes buf
    if cur.size ≠ L.sizeofEntry then
      if cur.size = 0 then (none, offset)
      else tsFindRecord file key (offset + cur.size)
    else if tsMatchRecord key cur then (some cur, offset + L.sizeofEntry)
    else tsFindRecord file key (offset + L.sizeofEntry)
  else (none, offset + buf.length)
termination_by file.length - offset
decreasing_by
  all_goals
    have hpos := L.sizeofEntryV1_pos
    have hlt := L.sizeofEntryV1_lt
    have hread := hbuf.symm.trans (length_pread file offset L.sizeofEntry)
  · show file.length - (offset + cur.size) < file.length - offset
    omega
  · omega

/-- `ts_write` of an entry at an offset. -/
def tsWrite (file : List Byte) (entry : TimestampEntry) (offset : Nat) : List Byte :=
  pwrite L.zero file offset ((L.bytes entry).take entry.size)

inductive TicketType where
  | global
  | ppid
  | tty
  | kernel
  deriving DecidableEq, Repr

/-- What is read of `ctx->user`, with what `get_starttime` gives for the session leader and for
the parent.  A terminal `NODEV` is `none`. -/
structure TsContext where
  ttydev : Option Int
  ppid : Int
  sid : Int
  sidStart : Timespec
  ppidStart : Timespec
  deriving DecidableEq, Repr

/-- The cases `kernel` and `ppid` of `ts_init_key`. -/
def ppidKey (ctx : TsContext) (entry : TimestampEntry) : TimestampEntry :=
  { entry with type := .ppid, u := ctx.ppid, startTime := ctx.ppidStart }

/-- The case `tty`, which goes on to the one of `ppid` where there is no terminal. -/
def ttyKey (ctx : TsContext) (entry : TimestampEntry) : TimestampEntry :=
  match ctx.ttydev with
  | some ttydev =>
    { entry with
      type := .tty, u := ttydev,
      startTime := if ctx.sid ≠ -1 then ctx.sidStart else entry.startTime }
  | none => ppidKey ctx entry

def tsInitKey (ctx : TsContext) (pw : Option Nat) (flags : TsFlags) (ticketType : TicketType) :
    TimestampEntry :=
  let entry := { TimestampEntry.zero with
    version := TS_VERSION, size := L.sizeofEntry, flags := flags }
  let entry :=
    match pw with
    | some pwUid => { entry with authUid := pwUid }
    | none => { entry with flags := { entry.flags with anyuid := true } }
  let entry := { entry with sid := ctx.sid }
  match ticketType with
  | .tty => ttyKey ctx entry
  | .kernel | .ppid => ppidKey ctx entry
  | .global => { entry with type := .global }

structure TsSettings where
  timestampType : TicketType
  timestampTimeout : Timespec

variable (settings : TsSettings)

def tsInitKeyNonglobal (ctx : TsContext) (pw : Option Nat) (flags : TsFlags) : TimestampEntry :=
  tsInitKey L ctx pw flags (if settings.timestampType = .ppid then .ppid else .tty)

/-! ## The calls -/

/-- `struct ts_cookie`, where a `pos` of -1 is `none`. -/
structure TsCookie where
  ctx : TsContext
  locked : Bool
  pos : Option Nat
  key : TimestampEntry
  deriving DecidableEq, Repr

/-- `timestamp_open`: a cookie, unless there is no time stamp file to use. -/
def timestampOpen (ctx : TsContext) : Option TsCookie :=
  if ¬ sudoTimespecisset settings.timestampTimeout then none
  else some { ctx := ctx, locked := false, pos := none, key := TimestampEntry.zero }

/-- The record of `timestamp_lock_write`. -/
def lockRecord : TimestampEntry :=
  { TimestampEntry.zero with version := TS_VERSION, size := L.sizeofEntry, type := .lockexcl }

/-- What `timestamp_lock` does to make the first record a `TS_LOCKEXCL` one: the file, and the
offset after that record.  The file is truncated under the offset that the read has left. -/
def lockFirstRecord (file : List Byte) : List Byte × Nat :=
  let buf := pread file 0 L.sizeofEntry
  let entry := L.ofBytes buf
  let overwritten := (tsWrite L [] (lockRecord L) buf.length, buf.length + L.sizeofEntry)
  if buf.length < L.sizeofEntryV1 then overwritten
  else if entry.type ≠ .lockexcl then
    if entry.size = L.sizeofEntryV1 then
      let entry := { TimestampEntry.zero with
        version := entry.version, size := entry.size, type := .lockexcl }
      (tsWrite L file entry 0, entry.size)
    else overwritten
  else if entry.size ≠ L.sizeofEntry then (file, entry.size)
  else (file, buf.length)

/-- The record of the key from an offset on, or else one that is appended: the file, and the
position of the record. -/
def tsFindOrAppend (file : List Byte) (key : TimestampEntry) (offset : Nat) : List Byte × Nat :=
  match tsFindRecord L file key offset with
  | (some entry, offset) => (file, offset - entry.size)
  | (none, offset) => (tsWrite L file key offset, offset)

def timestampLock (file : List Byte) (cookie : TsCookie) (pw : Nat) : List Byte × TsCookie :=
  let first := lockFirstRecord L file
  let key := tsInitKeyNonglobal L settings cookie.ctx (some pw) { disabled := true, anyuid := false }
  let nonglobal := tsFindOrAppend L first.1 key first.2
  if settings.timestampType = .global then
    let key := { key with type := .global }
    let found := tsFindOrAppend L nonglobal.1 key 0
    (found.1, { cookie with locked := false, pos := some found.2, key := key })
  else (nonglobal.1, { cookie with locked := true, pos := some nonglobal.2, key := key })

inductive TsStatus where
  | current
  | old
  | missing
  | error
  | fatal
  deriving DecidableEq, Repr

def TimestampEntry.disable (entry : TimestampEntry) : TimestampEntry :=
  { entry with flags := { entry.flags with disabled := true } }

/-- `timestamp_status` once the record is read: the entry to write back, and the status.  The
clock is monotonic. -/
def entryStatus (now : Timespec) (ctx : TsContext) (entry : TimestampEntry) :
    Option TimestampEntry × TsStatus :=
  if entry.version ≠ TS_VERSION ∨ entry.size ≠ L.sizeofEntry then (none, .old)
  else if ¬ timespecValid entry.startTime ∨ ¬ timespecValid entry.ts then (none, .old)
  else if entry.flags.disabled then (none, .old)
  else if entry.type ≠ .global ∧ entry.sid ≠ ctx.sid then (none, .old)
  else if sudoTimespecLt settings.timestampTimeout sudoTimespecclear then (none, .current)
  else
    let diff := sudoTimespecsub now entry.ts
    if sudoTimespecLt diff settings.timestampTimeout then
      if diff.tvSec < 0 then (some entry.disable, .old) else (none, .current)
    else (none, .old)

/-- `timestamp_status`, on a system without kernel tickets. -/
def timestampStatus (file : List Byte) (cookie : Option TsCookie) (now : Timespec) :
    List Byte × TsStatus :=
  if ¬ sudoTimespecisset settings.timestampTimeout then (file, .old)
  else
    match cookie with
    | none => (file, .old)
    | some cookie =>
      match cookie.pos with
      | none => (file, .old)
      | some pos =>
        let buf := pread file pos L.sizeofEntry
        if buf.length ≠ L.sizeofEntry then (file, .error)
        else
          let result := entryStatus L settings now cookie.ctx (L.ofBytes buf)
          match result.1 with
          | some entry => (tsWrite L file entry pos, result.2)
          | none => (file, result.2)

def TimestampEntry.enable (key : TimestampEntry) (now : Timespec) : TimestampEntry :=
  { key with flags := { key.flags with disabled := false }, ts := now }

/-- `timestamp_update`, on a system without kernel tickets. -/
def timestampUpdate (file : List Byte) (cookie : Option TsCookie) (now : Timespec) :
    List Byte × Option TsCookie × Bool :=
  if ¬ sudoTimespecisset settings.timestampTimeout then (file, cookie, false)
  else
    match cookie with
    | none => (file, none, false)
    | some cookie =>
      match cookie.pos with
      | none => (file, some cookie, false)
      | some pos =>
        let key := cookie.key.enable now
        (tsWrite L file key pos, some { cookie with key := key }, true)

theorem tsFindRecord_some {file : List Byte} {key entry : TimestampEntry} {offset stop : Nat}
    (h : tsFindRecord L file key offset = (some entry, stop)) :
    entry.size = L.sizeofEntry ∧ offset + L.sizeofEntry ≤ stop ∧ stop ≤ file.length := by
  fun_induction tsFindRecord L file key offset with
  | case1 offset buf hread cur hsize hzero => exact absurd (congrArg Prod.fst h) (by simp)
  | case2 offset buf hread cur hsize hzero ih =>
    obtain ⟨hentry, hstart, hstop⟩ := ih h
    exact ⟨hentry, by omega, hstop⟩
  | case3 offset buf hread cur hsize hmatch =>
    obtain ⟨hcur, hstop⟩ := Prod.mk.inj h
    have hlen : buf.length = min L.sizeofEntry (file.length - offset) := length_pread _ _ _
    have hpos := L.sizeofEntryV1_pos
    have hlt := L.sizeofEntryV1_lt
    rw [← Option.some.inj hcur]
    exact ⟨not_not.mp hsize, by omega, by omega⟩
  | case4 offset buf hread cur hsize hmatch ih =>
    obtain ⟨hentry, hstart, hstop⟩ := ih h
    exact ⟨hentry, by omega, hstop⟩
  | case5 offset buf hread => exact absurd (congrArg Prod.fst h) (by simp)

theorem length_tsWrite_le {file : List Byte} {entry : TimestampEntry} {offset : Nat}
    (h : offset + L.sizeofEntry ≤ file.length) :
    (tsWrite L file entry offset).length = file.length := by
  unfold tsWrite
  refine length_pwrite L.zero ?_
  rw [List.length_take, L.length_bytes]
  omega

def disableRecords (file : List Byte) (key : TimestampEntry) (offset : Nat) : List Byte :=
  match _hfound : tsFindRecord L file key offset with
  | (none, _) => file
  | (some entry, stop) =>
    if entry.flags.disabled then disableRecords file key stop
    else
      let offset := stop - L.sizeofEntry
      disableRecords (tsWrite L file entry.disable offset) key (offset + entry.size)
termination_by file.length - offset
decreasing_by
  all_goals
    have hpos := L.sizeofEntryV1_pos
    have hlt := L.sizeofEntryV1_lt
    obtain ⟨hentry, hstart, hstop⟩ := tsFindRecord_some L _hfound
  · omega
  · rw [length_tsWrite_le L (by omega)]
    omega

/-- `timestamp_remove` for `sudo -k`, on a system without kernel tickets. -/
def timestampRemove (ctx : TsContext) (file : Option (List Byte)) : Option (List Byte) :=
  file.map (fun file =>
    disableRecords L file
      (tsInitKey L ctx none { disabled := false, anyuid := false } settings.timestampType) 0)

/-- The time stamp file, which may be missing, and the cookies of those who have opened it. -/
structure TsSystem (Byte : Type) where
  file : Option (List Byte)
  cookies : Nat → Option TsCookie

/-- A call, by whoever holds the cookie `c`. -/
inductive TsCall where
  | open (c : Nat) (ctx : TsContext)
  | lock (c : Nat) (pw : Nat)
  | status (c : Nat)
  | update (c : Nat)
  | remove (ctx : TsContext)
  deriving DecidableEq, Repr

inductive TsAnswer where
  | ret (ret : Bool)
  | status (status : TsStatus)
  deriving DecidableEq, Repr

def step (s : TsSystem Byte) (now : Timespec) : TsCall → TsSystem Byte × TsAnswer
  | .open c ctx =>
    match timestampOpen settings ctx with
    | none => ({ s with cookies := Function.update s.cookies c none }, .ret false)
    | some cookie =>
      ({ file := some (s.file.getD []), cookies := Function.update s.cookies c (some cookie) },
        .ret true)
  | .lock c pw =>
    match s.cookies c with
    | none => (s, .ret false)
    | some cookie =>
      let locked := timestampLock L settings (s.file.getD []) cookie pw
      ({ file := some locked.1, cookies := Function.update s.cookies c (some locked.2) },
        .ret true)
  | .status c =>
    let result := timestampStatus L settings (s.file.getD []) (s.cookies c) now
    ({ s with file := s.file.map (fun _ => result.1) }, .status result.2)
  | .update c =>
    let result := timestampUpdate L settings (s.file.getD []) (s.cookies c) now
    ({ file := s.file.map (fun _ => result.1)
       cookies := Function.update s.cookies c result.2.1 }, .ret result.2.2)
  | .remove ctx => ({ s with file := timestampRemove L settings ctx s.file }, .ret true)

def runCalls (s : TsSystem Byte) (run : List (Timespec × TsCall)) : TsSystem Byte :=
  run.foldl (fun s call => (step L settings s call.1 call.2).1) s

end NextBSD.Sudoers
