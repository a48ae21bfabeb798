import NextBSD.Library.SlotTable
import Mathlib

/-!
# The event base

`event.c` and its `poll` back-end `event_poll.c`, for one base without signal events.  An event is
named by a number: what `sudo_ev_init` stores in it is its `EventSpec`, what the base changes is its
`EventState`.  The array `pfds` is a list of `pfd_max` entries, and an access outside of it is
`none`.  Times are nanoseconds.
-/

namespace NextBSD.Event

abbrev EventId := Nat

structure EventSpec where
  fd : Int
  read : Bool
  write : Bool
  persist : Bool
  deriving DecidableEq, Repr

/-- `SUDO_EV_READ|SUDO_EV_WRITE` is set. -/
def EventSpec.isIo (spec : EventSpec) : Bool := spec.read || spec.write

/-- What a callback is told: `SUDO_EV_TIMEOUT`, `SUDO_EV_READ` and `SUDO_EV_WRITE`. -/
structure What where
  timeout : Bool
  read : Bool
  write : Bool
  deriving DecidableEq, Repr

/-- The fields of an event that change; the first three are the bits of `flags`. -/
structure EventState where
  inserted : Bool
  active : Bool
  timeouts : Bool
  pfdIdx : Int
  revents : What
  timeout : Int
  deriving DecidableEq, Repr

def EventState.init : EventState :=
  { inserted := false, active := false, timeouts := false, pfdIdx := -1,
    revents := ⟨false, false, false⟩, timeout := 0 }

/-- The bits that `poll` sets in `revents`; `other` stands for those the base does not name. -/
structure Revents where
  pollin : Bool
  pollout : Bool
  pollhup : Bool
  pollnval : Bool
  pollerr : Bool
  other : Bool
  deriving DecidableEq, Repr

def Revents.zero : Revents := ⟨false, false, false, false, false, false⟩

structure Pollfd where
  fd : Int
  pollin : Bool
  pollout : Bool
  revents : Revents
  deriving DecidableEq, Repr

/-- An entry of a new array.  Its other fields are not read before they are set. -/
def Pollfd.unused : Pollfd := { fd := -1, pollin := false, pollout := false, revents := .zero }

def Pollfd.isFree (pfd : Pollfd) : Bool := pfd.fd == -1

structure BaseFlags where
  loopOnce : Bool
  loopExit : Bool
  loopBreak : Bool
  loopCont : Bool
  gotExit : Bool
  gotBreak : Bool
  deriving DecidableEq, Repr

def BaseFlags.zero : BaseFlags := ⟨false, false, false, false, false, false⟩

structure EventBase where
  ev : EventId → EventState
  events : List EventId
  active : List EventId
  timeouts : List EventId
  pfds : List Pollfd
  pfdHigh : Int
  pfdFree : Nat
  flags : BaseFlags

def EventBase.alloc : EventBase :=
  { ev := fun _ => .init, events := [], active := [], timeouts := [],
    pfds := List.replicate 32 .unused, pfdHigh := -1, pfdFree := 0, flags := .zero }

/-- `(int)rlim.rlim_cur`. -/
def nofileMax (rlim : Nat) : Int := (rlim : Int).bmod (2 ^ 32)

/-- `(short)base->pfd_free`. -/
def slotIndex (pfdFree : Nat) : Int := (pfdFree : Int).bmod (2 ^ 16)

/-- The array that `sudo_ev_add_impl` goes on with, `none` where it returns -1.  The size of a
negative number of entries overflows, so `reallocarray` fails. -/
def growPfds (rlim pfdFree : Nat) (pfds : List Pollfd) : Option (List Pollfd) :=
  if pfdFree = pfds.length then
    let newMax := min (2 * (pfds.length : Int)) (nofileMax rlim)
    if (pfdFree : Int) = newMax then none
    else if newMax < 0 then none
    else
      some (pfds.take newMax.toNat ++ List.replicate (newMax.toNat - pfds.length) .unused)
  else some pfds

def slotAt (pfds : List Pollfd) (idx : Int) : Option Pollfd :=
  if idx < 0 then none else pfds[idx.toNat]?

/-- The entry at `idx` is filled in, and the marks are updated. -/
def fillSlot (spec : EventSpec) (base : EventBase) (e : EventId) (pfds : List Pollfd) (idx : Int)
    (pfd : Pollfd) : EventBase :=
  let pfds := pfds.set idx.toNat { pfd with fd := spec.fd, pollin := spec.read, pollout := spec.write }
  { base with
    ev := Function.update base.ev e { base.ev e with pfdIdx := idx }
    pfds := pfds
    pfdHigh := max base.pfdHigh idx
    pfdFree := base.pfdFree + 1 + (pfds.drop (base.pfdFree + 1)).findIdx Pollfd.isFree }

def placeEvent (spec : EventSpec) (base : EventBase) (e : EventId) (pfds : List Pollfd) (idx : Int) :
    Option (EventBase × Int) :=
  (slotAt pfds idx).map (fun pfd => (fillSlot spec base e pfds idx pfd, 0))

def sudoEvAddImpl (rlim : Nat) (spec : EventSpec) (base : EventBase) (e : EventId) :
    Option (EventBase × Int) :=
  match growPfds rlim base.pfdFree base.pfds with
  | none => some (base, -1)
  | some pfds => placeEvent spec base e pfds (slotIndex base.pfdFree)

/-- The entry at `idx` is freed, and the marks are updated. -/
def clearSlot (base : EventBase) (idx : Int) (pfd : Pollfd) : EventBase :=
  let pfds := base.pfds.set idx.toNat { pfd with fd := -1 }
  { base with
    pfds := pfds
    pfdFree := if idx < base.pfdFree then idx.toNat else base.pfdFree
    pfdHigh := (SlotTable.lower Pollfd.isFree pfds (base.pfdHigh + 1).toNat : Int) - 1 }

def sudoEvDelImpl (base : EventBase) (e : EventId) : Option EventBase :=
  (slotAt base.pfds (base.ev e).pfdIdx).map (clearSlot base (base.ev e).pfdIdx)

def linkEvent (base : EventBase) (e : EventId) (tohead : Bool) : EventBase :=
  { base with
    events := if tohead then e :: base.events else base.events ++ [e]
    ev := Function.update base.ev e { base.ev e with inserted := true } }

def unlinkEvent (base : EventBase) (e : EventId) : EventBase :=
  { base with
    events := base.events.erase e
    timeouts := if (base.ev e).timeouts then base.timeouts.erase e else base.timeouts
    active := if (base.ev e).active then base.active.erase e else base.active
    ev := Function.update base.ev e
      { base.ev e with inserted := false, active := false, timeouts := false, pfdIdx := -1 } }

/-- An event that is not inserted: `sudo_ev_add_impl` for an I/O event, and the event list. -/
def insertEvent (rlim : Nat) (spec : EventSpec) (base : EventBase) (e : EventId) (tohead : Bool) :
    Option (EventBase × Int) :=
  match if spec.isIo then sudoEvAddImpl rlim spec base e else some (base, 0) with
  | none => none
  | some (base, ret) => if ret ≠ 0 then some (base, -1) else some (linkEvent base e tohead, 0)

def dropTimeout (base : EventBase) (e : EventId) : EventBase :=
  { base with
    ev := Function.update base.ev e { base.ev e with timeouts := false }
    timeouts := base.timeouts.erase e }

def insertTimeout (ev : EventId → EventState) (e : EventId) : List EventId → List EventId
  | [] => [e]
  | evtmp :: timeouts =>
    if (ev e).timeout < (ev evtmp).timeout then e :: evtmp :: timeouts
    else evtmp :: insertTimeout ev e timeouts

def setTimeout (base : EventBase) (e : EventId) (timeout : Int) : EventBase :=
  let ev := Function.update base.ev e { base.ev e with timeouts := true, timeout := timeout }
  let timeouts := if (base.ev e).timeouts then base.timeouts.erase e else base.timeouts
  { base with ev := ev, timeouts := insertTimeout ev e timeouts }

/-- The part of `sudo_ev_add_v2` about the timeout. -/
def addTimeout (now : Int) (base : EventBase) (e : EventId) : Option Int → EventBase
  | none => base
  | some timo => setTimeout base e (now + timo)

/-- `sudo_ev_add_v2` at the time `now`. -/
def sudoEvAdd (rlim : Nat) (spec : EventSpec) (now : Int) (base : EventBase) (e : EventId)
    (timo : Option Int) (tohead : Bool) : Option (EventBase × Int) :=
  if (base.ev e).inserted then
    let base := if timo.isNone && (base.ev e).timeouts then dropTimeout base e else base
    some (addTimeout now base e timo, 0)
  else
    match insertEvent rlim spec base e tohead with
    | none => none
    | some (base, ret) => if ret ≠ 0 then some (base, ret) else some (addTimeout now base e timo, 0)

def sudoEvDel (spec : EventSpec) (base : EventBase) (e : EventId) : Option EventBase :=
  if (base.ev e).inserted then
    match if spec.isIo then sudoEvDelImpl base e else some base with
    | none => none
    | some base => some (unlinkEvent base e)
  else some base

end NextBSD.Event
