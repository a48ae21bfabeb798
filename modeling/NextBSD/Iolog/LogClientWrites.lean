import NextBSD.Iolog.LogClientRuns
import Mathlib.Data.List.Nodup
import Mathlib.Logic.Function.Basic

/-!
# Writing to the log server

`fmt_client_message`, `client_msg_cb` and `client_message_completion` of `log_client.c`.  A buffer
is known by its address.  Memory does not run out and `read_ev` can be added, but what `malloc`
returns has any content.  A callback that reads for TLS does not come to the queue and is left out.
-/

namespace NextBSD.Iolog

inductive ClientState where
  | error
  | recvHello
  | sendRestart
  | sendAccept
  | sendAlert
  | sendReject
  | sendIo
  | sendExit
  | closing
  | finished
  deriving DecidableEq, Repr

/-- `struct client_closure`, with the buffers that are allocated, what has been sent and how often
`client_message_completion` has run. -/
structure ClientClosure where
  logIo : Bool
  ignoreLogErrors : Bool
  state : ClientState
  disabled : Bool
  writeInsteadOfRead : Bool
  readEv : Bool
  writeEv : Bool
  loopbreak : Bool
  writeBufs : List Nat
  freeBufs : List Nat
  buffers : Nat → ConnectionBuffer
  allocated : List Nat
  sent : Bytes
  completions : Nat

/-- What `write` or `SSL_write_ex` does in a callback that has not timed out. -/
inductive WriteResult where
  | timeout
  | wantRead
  | wantWrite
  | failed
  | wrote (nwritten : Nat)
  deriving DecidableEq, Repr

namespace ClientClosure

def callocBuf (closure : ClientClosure) (addr : Nat) : ClientClosure :=
  { closure with
    allocated := addr :: closure.allocated
    buffers := Function.update closure.buffers addr
      { data := { allocated := 0, byte := fun _ => 0 }, size := 0, len := 0, off := 0 } }

def takeFree (closure : ClientClosure) (first : Nat) : ClientClosure :=
  { closure with freeBufs := closure.freeBufs.erase first }

/-- `get_free_buf`; `calloc` returns `addr`. -/
def getFreeBuf (closure : ClientClosure) (addr : Nat) : Nat × ClientClosure :=
  match closure.freeBufs with
  | [] => (addr, closure.callocBuf addr)
  | first :: _ => (first, closure.takeFree first)

def freeBuf (closure : ClientClosure) (addr : Nat) : ClientClosure :=
  { closure with allocated := closure.allocated.erase addr }

/-- The data is resized as needed; `content` is what `malloc` returns. -/
def resizeBuf (content : Nat → UInt8) (buf : ConnectionBuffer) (len : Nat) :
    Option ConnectionBuffer :=
  if len > buf.size then
    let newSize := sudoPow2Roundup len
    if newSize < len then none
    else some { buf with data := { allocated := newSize, byte := content }, size := newSize }
  else some buf

def packBuf (buf : ConnectionBuffer) (msg : Bytes) : Option ConnectionBuffer :=
  ((buf.data.write 0 (htonl msg.length)).bind (fun data => data.write 4 msg)).map
    (fun data => { buf with data := data, len := msg.length + 4 })

/-- `fmt_client_message` of a message as `client_message__pack` writes it.  It is `none` where a
copy leaves the buffer's memory. -/
def fmtClientMessage (closure : ClientClosure) (addr : Nat) (content : Nat → UInt8) (msg : Bytes) :
    Option (Bool × ClientClosure) :=
  let (addr, closure) := closure.getFreeBuf addr
  if msg.length > messageSizeMax then some (false, closure.freeBuf addr)
  else
    match resizeBuf content (closure.buffers addr) (msg.length + 4) with
    | none => some (false, closure.freeBuf addr)
    | some buf =>
      (packBuf buf msg).map (fun buf =>
        (true, { closure with
          buffers := Function.update closure.buffers addr buf
          writeBufs := closure.writeBufs ++ [addr] }))

/-- The label `bad` of `client_msg_cb`. -/
def bad (closure : ClientClosure) : ClientClosure :=
  if closure.ignoreLogErrors then
    { closure with disabled := true, readEv := false, writeEv := false }
  else { closure with loopbreak := true }

/-- The `switch` of `client_message_completion`. -/
def advanceState (closure : ClientClosure) : Bool × ClientClosure :=
  match closure.state with
  | .recvHello => (true, closure)
  | .sendAlert | .sendReject =>
    (true, { closure with writeEv := false, readEv := false, state := .finished })
  | .sendAccept | .sendRestart => (true, { closure with state := .sendIo })
  | .sendIo => (true, closure)
  | .sendExit =>
    if closure.logIo then
      (true, { closure with writeEv := false, state := .closing, readEv := true })
    else (true, { closure with state := .finished, readEv := false })
  | .error | .closing | .finished => (false, closure)

def clientMessageCompletion (closure : ClientClosure) : Bool × ClientClosure :=
  advanceState { closure with completions := closure.completions + 1 }

def freeSent (closure : ClientClosure) (addr : Nat) : ClientClosure :=
  { closure with
    buffers := Function.update closure.buffers addr
      { closure.buffers addr with len := 0, off := 0 }
    writeBufs := closure.writeBufs.erase addr
    freeBufs := closure.freeBufs ++ [addr] }

def finishBuf (closure : ClientClosure) (addr : Nat) : ClientClosure :=
  let closure := closure.freeSent addr
  if closure.writeBufs = [] then
    match clientMessageCompletion { closure with writeEv := false } with
    | (true, closure) => closure
    | (false, closure) => closure.bad
  else closure

def sizeMax : Nat := 2 ^ 64 - 1

def countWritten (closure : ClientClosure) (addr nwritten : Nat) : ClientClosure :=
  let buf := closure.buffers addr
  if nwritten > sizeMax - buf.off then closure.bad
  else
    let closure := { closure with
      buffers := Function.update closure.buffers addr { buf with off := buf.off + nwritten } }
    if buf.off + nwritten = buf.len then closure.finishBuf addr else closure

/-- The bytes of a buffer are offered.  It is `none` where they are not all in its memory. -/
def writeBuf (closure : ClientClosure) (addr : Nat) (result : WriteResult) : Option ClientClosure :=
  let buf := closure.buffers addr
  (buf.data.read buf.off (buf.len - buf.off)).map (fun offered =>
    match result with
    | .timeout | .failed => closure.bad
    | .wantRead => { closure with writeInsteadOfRead := true }
    | .wantWrite => closure
    | .wrote nwritten =>
      countWritten { closure with sent := closure.sent ++ offered.take nwritten } addr nwritten)

def clientMsgCb (closure : ClientClosure) (result : WriteResult) : Option ClientClosure :=
  if result = .timeout then some closure.bad
  else
    match closure.writeBufs with
    | [] => some closure.bad
    | addr :: _ => closure.writeBuf addr result

def Accepts (closure : ClientClosure) (result : WriteResult) : Prop :=
  ∀ nwritten, result = .wrote nwritten → ∀ addr ∈ closure.writeBufs.head?,
    nwritten ≤ (closure.buffers addr).len - (closure.buffers addr).off

end ClientClosure

open ClientClosure

/-- The messages that have been queued and the closure this has led to, in any order of queueing and
writing.  A caller of `fmt_client_message` may set the state. -/
inductive Sends : List Bytes → ClientClosure → Prop where
  | start (closure : ClientClosure) (hwrite : closure.writeBufs = [])
      (hfree : closure.freeBufs = []) (hallocated : closure.allocated = [])
      (hsent : closure.sent = []) : Sends [] closure
  | message {queued : List Bytes} {closure closure' : ClientClosure} {ok : Bool}
      (h : Sends queued closure) (addr : Nat) (content : Nat → UInt8) (msg : Bytes)
      (hfresh : addr ∉ closure.allocated)
      (hf : closure.fmtClientMessage addr content msg = some (ok, closure')) :
      Sends (if ok then queued ++ [msg] else queued) closure'
  | callback {queued : List Bytes} {closure closure' : ClientClosure} (h : Sends queued closure)
      (result : WriteResult) (haccepts : closure.Accepts result)
      (hc : closure.clientMsgCb result = some closure') : Sends queued closure'
  | caller {queued : List Bytes} {closure : ClientClosure} (h : Sends queued closure)
      (state : ClientState) : Sends queued { closure with state := state }

end NextBSD.Iolog
