import NextBSD.Event.Base

/-!
# The event loop

`sudo_ev_loop_v1` as a machine that stops wherever a callback or the caller of the loop may use the
base.  A step bears a label that says what can be seen of it.
-/

namespace NextBSD.Event

def startFlags (once : Bool) (flags : BaseFlags) : BaseFlags :=
  { BaseFlags.zero with loopOnce := flags.loopOnce || once, loopExit := flags.loopExit }

/-- `base->flags &= SUDO_EVBASE_GOT_MASK`. -/
def gotFlags (flags : BaseFlags) : BaseFlags :=
  { BaseFlags.zero with gotExit := flags.gotExit, gotBreak := flags.gotBreak }

/-- `sudo_ev_loopexit_v1`. -/
def loopexitFlags (flags : BaseFlags) : BaseFlags :=
  if flags.loopBreak then flags
  else { flags with loopCont := false, loopExit := true, loopOnce := true }

/-- `sudo_ev_loopbreak_v1`. -/
def loopbreakFlags (flags : BaseFlags) : BaseFlags :=
  { flags with loopCont := false, loopExit := false, loopOnce := false, loopBreak := true }

/-- `sudo_ev_loopcontinue_v1`. -/
def loopcontinueFlags (flags : BaseFlags) : BaseFlags :=
  if flags.loopOnce || flags.loopBreak then flags else { flags with loopCont := true }

def EventBase.setFlags (f : BaseFlags → BaseFlags) (base : EventBase) : EventBase :=
  { base with flags := f base.flags }

def sudoEvActivate (base : EventBase) (e : EventId) : EventBase :=
  { base with
    active := base.active ++ [e]
    ev := Function.update base.ev e { base.ev e with active := true } }

def sudoEvDeactivate (base : EventBase) (e : EventId) : EventBase :=
  { base with
    ev := Function.update base.ev e { base.ev e with active := false }
    active := base.active.erase e }

/-- `sudo_ev_deactivate_all`: each round takes the first of the queue. -/
def sudoEvDeactivateAll (base : EventBase) : EventBase := base.active.foldl sudoEvDeactivate base

/-- The bits of `revents` that mean reading, and those that mean writing. -/
def Revents.readable (r : Revents) : Bool := r.pollin || r.pollhup || r.pollnval || r.pollerr

def Revents.writable (r : Revents) : Bool := r.pollout || r.pollhup || r.pollnval || r.pollerr

def Revents.any (r : Revents) : Bool := decide (r ≠ .zero)

/-- `poll` fills in the first `pfd_high + 1` entries. -/
def pollPfds (pfdHigh : Int) (revents : Nat → Revents) (pfds : List Pollfd) : List Pollfd :=
  pfds.mapIdx (fun i pfd => if (i : Int) ≤ pfdHigh then { pfd with revents := revents i } else pfd)

def setRevents (base : EventBase) (e : EventId) (what : What) : EventBase :=
  { base with ev := Function.update base.ev e { base.ev e with revents := what } }

def activateReady (spec : EventId → EventSpec) (base : EventBase) (e : EventId) :
    Option EventBase :=
  if (base.ev e).pfdIdx = -1 then some base
  else
    match slotAt base.pfds (base.ev e).pfdIdx with
    | none => none
    | some pfd =>
      if pfd.revents.any then
        let what :=
          { timeout := false
            read := pfd.revents.readable && (spec e).read
            write := pfd.revents.writable && (spec e).write }
        some (sudoEvActivate (setRevents base e what) e)
      else some base

/-- `sudo_ev_scan_impl` where `poll` returns a positive number. -/
def scanReady (spec : EventId → EventSpec) (revents : Nat → Revents) (base : EventBase) :
    Option EventBase :=
  base.events.foldlM (activateReady spec)
    { base with pfds := pollPfds base.pfdHigh revents base.pfds }

def expireEvent (base : EventBase) (e : EventId) : EventBase :=
  sudoEvActivate (setRevents (dropTimeout base e) e ⟨true, false, false⟩) e

/-- Where `poll` timed out: the events at the front of the timeouts queue that are due. -/
def expireTimeouts (now : Int) (base : EventBase) : EventBase :=
  (base.timeouts.takeWhile (fun e => (base.ev e).timeout ≤ now)).foldl expireEvent base

/-- Where the loop is: not running, at `rescan`, before the next active event, or in the callback of
an event.  `crashed` is reached by an access outside of `pfds`. -/
inductive Pc where
  | idle
  | rescan
  | dispatch
  | callback (e : EventId)
  | crashed
  deriving DecidableEq

def Pc.usable : Pc → Bool
  | .idle => true
  | .callback _ => true
  | _ => false

structure Machine where
  base : EventBase
  now : Int
  nonblock : Bool
  pc : Pc

def Machine.start : Machine := { base := .alloc, now := 0, nonblock := false, pc := .idle }

def EventBase.inUse (base : EventBase) : Nat := SlotTable.used Pollfd.isFree base.pfds

/-- What can be seen of a step: an `add` with what it returns and the slots in use before it, the
events that a scan reports, and the event whose callback runs. -/
inductive Label where
  | add (e : EventId) (ret : Int) (used : Nat)
  | del (e : EventId)
  | scan (reported : EventId → Prop)
  | callback (e : EventId)
  | other

def Machine.done (m : Machine) (base : EventBase) : Machine :=
  { m with base := base.setFlags gotFlags, pc := .idle }

def Machine.result (m : Machine) (pc : Pc) : Option EventBase → Machine
  | none => { m with pc := .crashed }
  | some base => { m with base := base, pc := pc }

/-- The base after a round of the loop over active events: the event is popped, and deleted unless it
is persistent. -/
def popActive (spec : EventSpec) (base : EventBase) (e : EventId) : Option EventBase :=
  if spec.persist then some (sudoEvDeactivate base e)
  else sudoEvDel spec (sudoEvDeactivate base e) e

def afterCallback (m : Machine) : Machine :=
  if m.base.flags.loopBreak then
    m.done (sudoEvDeactivateAll (m.base.setFlags (fun f => { f with gotBreak := true })))
  else if m.base.flags.loopCont then
    { m with
      base := sudoEvDeactivateAll (m.base.setFlags (fun f => { f with loopCont := false }))
      pc := .rescan }
  else { m with pc := .dispatch }

def afterDispatch (m : Machine) : Machine :=
  if m.base.flags.loopOnce then
    m.done (sudoEvDeactivateAll
      (m.base.setFlags (fun f => { f with gotExit := f.gotExit || f.loopExit })))
  else { m with pc := .rescan }

/-- The events that `poll` reports: inserted I/O events whose slot has fired. -/
def Fired (spec : EventId → EventSpec) (base : EventBase) (revents : Nat → Revents) (e : EventId) :
    Prop :=
  (base.ev e).inserted = true ∧ (spec e).isIo = true ∧
    (revents (base.ev e).pfdIdx.toNat).any = true

def Expired (base : EventBase) (now : Int) (e : EventId) : Prop :=
  (base.ev e).timeouts = true ∧ (base.ev e).timeout ≤ now

def EventBase.clearActive (base : EventBase) : EventBase := { base with active := [] }

/-- The steps.  The operations `add`, `del`, `loopexit`, `loopbreak` and `loopcontinue` are those of
the caller or of a callback; `poll` answers as it likes. -/
inductive Step (rlim : Nat) (spec : EventId → EventSpec) : Machine → Label → Machine → Prop where
  | tick (m : Machine) (now : Int) (h : m.now ≤ now) : Step rlim spec m .other { m with now := now }
  | add (m : Machine) (e : EventId) (timo : Option Int) (tohead : Bool) (base : EventBase)
      (ret : Int) (hpc : m.pc.usable = true)
      (h : sudoEvAdd rlim (spec e) m.now m.base e timo tohead = some (base, ret)) :
      Step rlim spec m (.add e ret m.base.inUse) { m with base := base }
  | addCrash (m : Machine) (e : EventId) (timo : Option Int) (tohead : Bool)
      (hpc : m.pc.usable = true)
      (h : sudoEvAdd rlim (spec e) m.now m.base e timo tohead = none) :
      Step rlim spec m (.add e 0 m.base.inUse) { m with pc := .crashed }
  | del (m : Machine) (e : EventId) (hpc : m.pc.usable = true) :
      Step rlim spec m (.del e) (m.result m.pc (sudoEvDel (spec e) m.base e))
  | loopexit (m : Machine) (hpc : m.pc.usable = true) :
      Step rlim spec m .other { m with base := m.base.setFlags loopexitFlags }
  | loopbreak (m : Machine) (hpc : m.pc.usable = true) :
      Step rlim spec m .other { m with base := m.base.setFlags loopbreakFlags }
  | loopcontinue (m : Machine) (hpc : m.pc.usable = true) :
      Step rlim spec m .other { m with base := m.base.setFlags loopcontinueFlags }
  | loop (m : Machine) (once nonblock : Bool) (hpc : m.pc = .idle) :
      Step rlim spec m .other
        { m with base := m.base.setFlags (startFlags once), nonblock := nonblock, pc := .rescan }
  | noEvents (m : Machine) (hpc : m.pc = .rescan) (h : m.base.events = []) :
      Step rlim spec m .other (m.done m.base)
  | pollRetry (m : Machine) (hpc : m.pc = .rescan) (h : m.base.events ≠ []) :
      Step rlim spec m (.scan (fun _ => False)) { m with base := m.base.clearActive }
  | pollError (m : Machine) (hpc : m.pc = .rescan) (h : m.base.events ≠ []) :
      Step rlim spec m (.scan (fun _ => False)) (m.done m.base.clearActive)
  | pollTimeout (m : Machine) (hpc : m.pc = .rescan) (h : m.base.events ≠ []) :
      Step rlim spec m (.scan (Expired m.base m.now))
        (let base := expireTimeouts m.now m.base.clearActive
         if m.nonblock && base.active.isEmpty then m.done base
         else { m with base := base, pc := .dispatch })
  | pollReady (m : Machine) (revents : Nat → Revents) (hpc : m.pc = .rescan)
      (h : m.base.events ≠ []) :
      Step rlim spec m (.scan (Fired spec m.base revents))
        (m.result .dispatch (scanReady spec revents m.base.clearActive))
  | dispatch (m : Machine) (e : EventId) (hpc : m.pc = .dispatch)
      (h : m.base.active.head? = some e) :
      Step rlim spec m (.callback e) (m.result (.callback e) (popActive (spec e) m.base e))
  | drained (m : Machine) (hpc : m.pc = .dispatch) (h : m.base.active = []) :
      Step rlim spec m .other (afterDispatch m)
  | ret (m : Machine) (e : EventId) (hpc : m.pc = .callback e) :
      Step rlim spec m .other (afterCallback m)

/-- The labels of a run, the last step first, and the machine it has reached.  Every step meets a
condition. -/
inductive Run (rlim : Nat) (spec : EventId → EventSpec) (meets : Machine → Label → Prop) :
    List Label → Machine → Prop where
  | start : Run rlim spec meets [] .start
  | step {tr : List Label} {m m' : Machine} {l : Label} (h : Run rlim spec meets tr m)
      (hmeets : meets m l) (hstep : Step rlim spec m l m') : Run rlim spec meets (l :: tr) m'

end NextBSD.Event
