import NextBSD.Iolog.Json
import NextBSD.Library.Block

/-!
# Reading from the log server

`expand_buf` and the reading side of `server_msg_cb` of `log_client.c`.  Memory does not run out,
but what `malloc` returns has any content.  An access outside of the buffer's memory ends in
`crashed`, an error in `bad`.
-/

namespace NextBSD.Iolog

def messageSizeMax : Nat := 2 * 1024 * 1024

def ntohl : Bytes → Nat
  | [a, b, c, d] => a.toNat * 2 ^ 24 + b.toNat * 2 ^ 16 + c.toNat * 2 ^ 8 + d.toNat
  | _ => 0

/-- `sudo_pow2_roundup`, for lengths that are far from overflow. -/
def sudoPow2Roundup (len : Nat) : Nat := if len < 64 then 64 else 2 ^ (Nat.log2 (len - 1) + 1)

structure ConnectionBuffer where
  data : Block
  size : Nat
  len : Nat
  off : Nat

inductive ReadStatus where
  | running
  | bad
  | crashed
  deriving DecidableEq, Repr

/-- The bytes from `off` on are copied to the start of a block. -/
def copyRest (buf : ConnectionBuffer) (newdata : Block) : Option Block :=
  if buf.off > 0 then (buf.data.read buf.off (buf.len - buf.off)).bind (newdata.write 0)
  else some newdata

def resetBuf (buf : ConnectionBuffer) (newdata : Block) (newsize : Nat) :
    ReadStatus × ConnectionBuffer :=
  match copyRest buf newdata with
  | none => (.crashed, buf)
  | some data => (.running, { data := data, size := newsize, len := buf.len - buf.off, off := 0 })

/-- `expand_buf`; `fresh` is what `malloc` returns. -/
def expandBuf (fresh : Nat → Nat → UInt8) (buf : ConnectionBuffer) (needed : Nat) :
    ReadStatus × ConnectionBuffer :=
  if buf.size < needed then
    if sudoPow2Roundup needed < needed then (.bad, buf)
    else resetBuf buf { allocated := needed, byte := fresh needed } (sudoPow2Roundup needed)
  else resetBuf buf buf.data buf.size

structure LogClient where
  buf : ConnectionBuffer
  handled : List Bytes
  status : ReadStatus

/-- The loop of `server_msg_cb`; `accepts` is what `handle_server_message` answers. -/
def messageLoop (fresh : Nat → Nat → UInt8) (accepts : Bytes → Bool) (buf : ConnectionBuffer)
    (handled : List Bytes) : LogClient :=
  if buf.len - buf.off ≥ 4 then
    match buf.data.read buf.off 4 with
    | none => { buf := buf, handled := handled, status := .crashed }
    | some wire =>
      let msgLen := ntohl wire
      if msgLen > messageSizeMax then { buf := buf, handled := handled, status := .bad }
      else if msgLen + 4 > buf.len - buf.off then
        let (status, buf) := expandBuf fresh buf (msgLen + 4)
        { buf := buf, handled := handled, status := status }
      else
        match buf.data.read (buf.off + 4) msgLen with
        | none => { buf := buf, handled := handled, status := .crashed }
        | some msg =>
          if accepts msg then
            messageLoop fresh accepts { buf with off := buf.off + 4 + msgLen } (handled ++ [msg])
          else { buf := { buf with off := buf.off + 4 }, handled := handled ++ [msg], status := .bad }
  else
    { buf := { buf with len := buf.len - buf.off, off := 0 }, handled := handled, status := .running }
termination_by buf.len - buf.off

/-- `server_msg_cb` where the read returns a chunk. -/
def serverMsgCb (fresh : Nat → Nat → UInt8) (accepts : Bytes → Bool) (client : LogClient)
    (chunk : Bytes) : LogClient :=
  if chunk = [] then { client with status := .bad }
  else
    match client.buf.data.write client.buf.len chunk with
    | none => { client with status := .crashed }
    | some data =>
      messageLoop fresh accepts
        { client.buf with data := data, len := client.buf.len + chunk.length } client.handled

def LogClient.start (content : Nat → UInt8) : LogClient :=
  { buf := { data := { allocated := 64 * 1024, byte := content }, size := 64 * 1024, len := 0, off := 0 }
    handled := []
    status := .running }

/-- What has been received and the client it has led to.  Every read offers the free space and meets
a condition. -/
inductive Receives (accepts : Bytes → Bool) (meets : LogClient → Bytes → Prop) :
    Bytes → LogClient → Prop where
  | start (content : Nat → UInt8) : Receives accepts meets [] (LogClient.start content)
  | read {received : Bytes} {client : LogClient} (h : Receives accepts meets received client)
      (chunk : Bytes) (fresh : Nat → Nat → UInt8) (hrunning : client.status = .running)
      (hne : chunk ≠ []) (hspace : chunk.length ≤ client.buf.size - client.buf.len)
      (hmeets : meets client chunk) :
      Receives accepts meets (received ++ chunk) (serverMsgCb fresh accepts client chunk)

def htonl (n : Nat) : Bytes :=
  [UInt8.ofNat (n / 2 ^ 24), UInt8.ofNat (n / 2 ^ 16), UInt8.ofNat (n / 2 ^ 8), UInt8.ofNat n]

def wireStream (msgs : List Bytes) : Bytes := msgs.flatMap (fun msg => htonl msg.length ++ msg)

end NextBSD.Iolog

/-!
## Messages and chunks

What `server_msg_cb` hands on of a stream that arrives in chunks.
-/

namespace NextBSD.Iolog

theorem length_htonl (n : Nat) : (htonl n).length = 4 := rfl

theorem ntohl_htonl {n : Nat} (h : n < 2 ^ 32) : ntohl (htonl n) = n := by
  unfold ntohl htonl
  simp only [UInt8.toNat_ofNat']
  omega

theorem wireStream_cons (msg : Bytes) (msgs : List Bytes) :
    wireStream (msg :: msgs) = htonl msg.length ++ (msg ++ wireStream msgs) := by
  unfold wireStream
  rw [List.flatMap_cons, List.append_assoc]

theorem wireStream_append (msgs more : List Bytes) :
    wireStream (msgs ++ more) = wireStream msgs ++ wireStream more := by
  unfold wireStream
  exact List.flatMap_append

def PartOf (rest : Bytes) (more : List Bytes) : Prop :=
  rest <+: wireStream more ∧ ∀ msg more', more = msg :: more' → rest.length < 4 + msg.length

theorem exists_partOf {received : Bytes} {msgs : List Bytes} (h : received <+: wireStream msgs) :
    ∃ whole more rest, msgs = whole ++ more ∧ received = wireStream whole ++ rest ∧
      PartOf rest more := by
  induction msgs generalizing received with
  | nil => exact ⟨[], [], received, rfl, rfl, h, fun _ _ heq => absurd heq (List.cons_ne_nil _ _).symm⟩
  | cons msg msgs ih =>
    by_cases hlength : received.length < 4 + msg.length
    · refine ⟨[], msg :: msgs, received, rfl, rfl, h, fun msg' more' heq => ?_⟩
      rw [← (List.cons.inj heq).1]
      exact hlength
    · have hsplit : received = (htonl msg.length ++ msg) ++ received.drop (4 + msg.length) := by
        have htake : received.take (4 + msg.length) = htonl msg.length ++ msg := by
          have hsame := List.prefix_iff_eq_take.mp h
          rw [wireStream_cons, ← List.append_assoc] at hsame
          rw [hsame, List.take_take, Nat.min_eq_left (by omega)]
          exact List.take_left' (by rw [List.length_append, length_htonl])
        rw [← htake, List.take_append_drop]
      have hrest : received.drop (4 + msg.length) <+: wireStream msgs := by
        have hcons := h
        rw [hsplit, wireStream_cons, ← List.append_assoc] at hcons
        exact (List.prefix_append_right_inj _).mp hcons
      obtain ⟨whole, more, rest, rfl, hreceived, hpart⟩ := ih hrest
      refine ⟨msg :: whole, more, rest, rfl, ?_, hpart⟩
      rw [hsplit, hreceived, wireStream_cons]
      simp only [List.append_assoc]

theorem PartOf.header {rest : Bytes} {more : List Bytes} (h : PartOf rest more)
    (hsmall : ∀ msg ∈ more, msg.length ≤ messageSizeMax) (hlength : 4 ≤ rest.length) :
    ntohl (rest.take 4) ≤ messageSizeMax ∧ rest.length < 4 + ntohl (rest.take 4) := by
  cases more with
  | nil =>
    have hnil := List.prefix_nil.mp h.1
    rw [hnil] at hlength
    exact absurd hlength (by decide)
  | cons msg more =>
    have hle := hsmall msg List.mem_cons_self
    have htake : rest.take 4 = htonl msg.length := by
      have hsame := List.prefix_iff_eq_take.mp h.1
      rw [wireStream_cons] at hsame
      rw [hsame, List.take_take, Nat.min_eq_left hlength]
      exact List.take_left' (length_htonl _)
    have hmax : messageSizeMax < 2 ^ 32 := by decide
    rw [htake, ntohl_htonl (by omega)]
    exact ⟨hle, h.2 msg more rfl⟩

/-! ## The loop -/

section loop

variable {fresh : Nat → Nat → UInt8} {accepts : Bytes → Bool} {buf : ConnectionBuffer}
  {handled : List Bytes}

theorem bytes_split {b : Block} {pos n : Nat} {first second : Bytes}
    (h : b.bytes pos n = first ++ second) :
    n = first.length + second.length ∧ b.bytes pos first.length = first ∧
      b.bytes (pos + first.length) second.length = second := by
  have hn : n = first.length + second.length := by
    rw [← Block.length_bytes b pos n, h, List.length_append]
  rw [hn, Block.bytes_add] at h
  obtain ⟨hfirst, hsecond⟩ := List.append_inj h (Block.length_bytes b pos first.length)
  exact ⟨hn, hfirst, hsecond⟩

theorem messageLoop_message {msg tail : Bytes} (hmsg : accepts msg = true)
    (hsmall : msg.length ≤ messageSizeMax)
    (hbytes : buf.data.bytes buf.off (buf.len - buf.off) = htonl msg.length ++ (msg ++ tail))
    (halloc : buf.len ≤ buf.data.allocated) :
    messageLoop fresh accepts buf handled =
      messageLoop fresh accepts { buf with off := buf.off + 4 + msg.length } (handled ++ [msg]) := by
  obtain ⟨hn, hheader, hrest⟩ := bytes_split hbytes
  obtain ⟨-, hbody, -⟩ := bytes_split hrest
  rw [length_htonl] at hn hheader hbody
  rw [List.length_append] at hn
  have hmax : messageSizeMax < 2 ^ 32 := by decide
  obtain ⟨wire, hwire⟩ : ∃ wire, wire = htonl msg.length := ⟨_, rfl⟩
  have hlength : ntohl wire = msg.length := by
    rw [hwire]
    exact ntohl_htonl (by omega)
  rw [← hwire] at hheader
  rw [messageLoop, if_pos (by omega), Block.read_eq_some (by omega), hheader]
  dsimp only
  rw [hlength, if_neg (by omega), if_neg (by omega), Block.read_eq_some (by omega), hbody]
  dsimp only
  rw [if_pos hmsg]

theorem messageLoop_whole {whole : List Bytes} {rest : Bytes}
    (haccepts : ∀ msg ∈ whole, accepts msg = true)
    (hsmall : ∀ msg ∈ whole, msg.length ≤ messageSizeMax)
    (hbytes : buf.data.bytes buf.off (buf.len - buf.off) = wireStream whole ++ rest)
    (halloc : buf.len ≤ buf.data.allocated) :
    messageLoop fresh accepts buf handled =
      messageLoop fresh accepts { buf with off := buf.off + (wireStream whole).length }
        (handled ++ whole) := by
  induction whole generalizing buf handled with
  | nil =>
    rw [List.append_nil]
    rfl
  | cons msg whole ih =>
    rw [wireStream_cons, List.append_assoc, List.append_assoc] at hbytes
    rw [messageLoop_message (haccepts msg List.mem_cons_self) (hsmall msg List.mem_cons_self)
      hbytes halloc]
    obtain ⟨hn, -, hrest⟩ := bytes_split hbytes
    obtain ⟨-, -, htail⟩ := bytes_split hrest
    rw [length_htonl] at hn htail
    simp only [List.length_append] at hn
    have hlength : buf.len - (buf.off + 4 + msg.length) = (wireStream whole ++ rest).length := by
      rw [List.length_append]
      omega
    have hbytes' : buf.data.bytes (buf.off + 4 + msg.length)
        (buf.len - (buf.off + 4 + msg.length)) = wireStream whole ++ rest := by
      rw [hlength]
      exact htail
    have hloop := @ih { buf with off := buf.off + 4 + msg.length } (handled ++ [msg]) (fun m hm => haccepts m (List.mem_cons_of_mem msg hm))
      (fun m hm => hsmall m (List.mem_cons_of_mem msg hm)) hbytes' halloc
    have hoff : buf.off + 4 + msg.length + (wireStream whole).length =
        buf.off + (wireStream (msg :: whole)).length := by
      rw [wireStream_cons, List.length_append, List.length_append, length_htonl]
      omega
    dsimp only at hloop
    rw [hloop, hoff, List.append_assoc]
    rfl

/-- A buffer whose bytes are at its start, and whose free space is allocated. -/
def BufHolds (buf : ConnectionBuffer) (rest : Bytes) : Prop :=
  buf.off = 0 ∧ buf.len = rest.length ∧ buf.data.bytes 0 rest.length = rest ∧
    buf.len ≤ buf.size ∧ buf.size ≤ buf.data.allocated

theorem resetBuf_holds {rest : Bytes} (newdata : Block) (newsize : Nat)
    (hbytes : buf.data.bytes buf.off (buf.len - buf.off) = rest)
    (hle : buf.off ≤ buf.len) (halloc : buf.len ≤ buf.data.allocated)
    (hsize : newsize ≤ newdata.allocated) (hfits : rest.length ≤ newsize)
    (hsame : buf.off = 0 → newdata = buf.data) :
    ∃ buf', resetBuf buf newdata newsize = (.running, buf') ∧ BufHolds buf' rest := by
  have hlength : buf.len - buf.off = rest.length := by
    rw [← hbytes, Block.length_bytes]
  unfold resetBuf copyRest
  by_cases hoff : buf.off > 0
  · rw [if_pos hoff, Block.read_eq_some (by omega), hbytes, Option.bind_some,
      Block.write_eq_some (by omega)]
    exact ⟨_, rfl, rfl, hlength, Block.bytes_overwrite_self newdata 0 rest,
      hlength ▸ hfits, hsize⟩
  · have hzero : buf.off = 0 := by omega
    rw [if_neg hoff]
    refine ⟨_, rfl, rfl, hlength, ?_, hlength ▸ hfits, hsize⟩
    rw [hsame hzero]
    rw [hzero, Nat.sub_zero] at hbytes
    rw [hzero, Nat.sub_zero] at hlength
    rw [← hlength]
    exact hbytes

theorem messageLoop_rest {rest : Bytes}
    (hbytes : buf.data.bytes buf.off (buf.len - buf.off) = rest)
    (hle : buf.off ≤ buf.len) (hfits : buf.len ≤ buf.size)
    (halloc : buf.size ≤ buf.data.allocated)
    (hheader : 4 ≤ rest.length →
      ntohl (rest.take 4) ≤ messageSizeMax ∧ rest.length < 4 + ntohl (rest.take 4))
    (hshort : rest.length < 4 → buf.data.bytes 0 rest.length = rest)
    (hlong : 4 ≤ rest.length → 4 + ntohl (rest.take 4) ≤ buf.size ∨
      (buf.off > 0 ∧ sudoPow2Roundup (4 + ntohl (rest.take 4)) = 4 + ntohl (rest.take 4))) :
    ∃ buf', messageLoop fresh accepts buf handled =
      { buf := buf', handled := handled, status := .running } ∧ BufHolds buf' rest := by
  have hlength : buf.len - buf.off = rest.length := by
    rw [← hbytes, Block.length_bytes]
  rw [messageLoop]
  by_cases hfour : 4 ≤ rest.length
  · obtain ⟨hsmall, hincomplete⟩ := hheader hfour
    have hwire : buf.data.bytes buf.off 4 = rest.take 4 := by
      have hsplit := Block.bytes_add buf.data buf.off 4 (rest.length - 4)
      rw [Nat.add_sub_cancel' hfour, ← hlength, hbytes] at hsplit
      rw [hsplit]
      exact (List.take_left' (Block.length_bytes _ _ _)).symm
    rw [if_pos (by omega), Block.read_eq_some (by omega), hwire]
    dsimp only
    rw [if_neg (by omega), if_pos (by omega), Nat.add_comm (ntohl _) 4]
    unfold expandBuf
    rcases hlong hfour with hroom | ⟨hoff, hpow⟩
    · rw [if_neg (by omega)]
      obtain ⟨buf', hreset, hholds⟩ := resetBuf_holds buf.data buf.size hbytes hle
        (by omega) halloc (by omega) (fun _ => rfl)
      exact ⟨buf', by rw [hreset], hholds⟩
    · by_cases hroom : buf.size < 4 + ntohl (rest.take 4)
      · rw [if_pos hroom, hpow, if_neg (by omega)]
        obtain ⟨buf', hreset, hholds⟩ := resetBuf_holds
          { allocated := 4 + ntohl (rest.take 4), byte := fresh (4 + ntohl (rest.take 4)) }
          (4 + ntohl (rest.take 4)) hbytes hle (by omega) (Nat.le_refl _) (by omega)
          (fun hzero => by omega)
        exact ⟨buf', by rw [hreset], hholds⟩
      · rw [if_neg hroom]
        obtain ⟨buf', hreset, hholds⟩ := resetBuf_holds buf.data buf.size hbytes hle
          (by omega) halloc (by omega) (fun _ => rfl)
        exact ⟨buf', by rw [hreset], hholds⟩
  · rw [if_neg (by omega)]
    exact ⟨_, rfl, rfl, hlength, hshort (by omega), by
      show buf.len - buf.off ≤ buf.size
      omega, halloc⟩

end loop

/-! ## Runs -/

/-- What is promised of a client that has received a part of the stream: the messages that have
arrived as a whole have been handled, and the next read is offered allocated memory. -/
structure Decoded (msgs : List Bytes) (received : Bytes) (client : LogClient) : Prop where
  running : client.status = .running
  handled : client.handled <+: msgs
  whole : ∀ l, l <+: msgs →
    (l.length ≤ client.handled.length ↔ (wireStream l).length ≤ received.length)
  offered : client.buf.len ≤ client.buf.size ∧ client.buf.size ≤ client.buf.data.allocated

/-- A read that meets no defect.  What it leaves of a length behind whole messages is equal to the
start of the buffer, and a message that has begun fits the buffer, or else begins behind a whole
message and needs a power of two of bytes. -/
def LeavesRest (client : LogClient) (chunk : Bytes) : Prop :=
  ∀ whole rest, client.buf.data.bytes 0 client.buf.len ++ chunk = wireStream whole ++ rest →
    (rest.length < 4 → rest <+: client.buf.data.bytes 0 client.buf.len ++ chunk) ∧
    (4 ≤ rest.length → rest.length < 4 + ntohl (rest.take 4) →
      4 + ntohl (rest.take 4) ≤ client.buf.size ∨
        (whole ≠ [] ∧ sudoPow2Roundup (4 + ntohl (rest.take 4)) = 4 + ntohl (rest.take 4)))

structure ReadInv (msgs : List Bytes) (received : Bytes) (client : LogClient) : Prop where
  running : client.status = .running
  split : ∃ more rest, msgs = client.handled ++ more ∧
    received = wireStream client.handled ++ rest ∧ PartOf rest more ∧ BufHolds client.buf rest

theorem ReadInv.decoded {msgs : List Bytes} {received : Bytes} {client : LogClient}
    (h : ReadInv msgs received client) : Decoded msgs received client := by
  obtain ⟨more, rest, hmsgs, hreceived, hpart, hholds⟩ := h.split
  have hhandled : client.handled <+: msgs := ⟨more, hmsgs.symm⟩
  refine ⟨h.running, hhandled, fun l hl => ?_, hholds.2.2.2⟩
  constructor
  · intro hle
    obtain ⟨tail, htail⟩ := List.prefix_of_prefix_length_le hl hhandled hle
    rw [hreceived, ← htail, wireStream_append, List.length_append, List.length_append]
    omega
  · intro hle
    by_contra hlt
    obtain ⟨tail, htail⟩ := List.prefix_of_prefix_length_le hhandled hl (by omega)
    cases tail with
    | nil =>
      rw [List.append_nil] at htail
      rw [htail] at hlt
      exact hlt (Nat.le_refl _)
    | cons msg tail =>
      have hmore : ∃ more', more = msg :: more' := by
        obtain ⟨more', hmore'⟩ := hl
        rw [← htail, hmsgs, List.append_assoc] at hmore'
        exact ⟨tail ++ more', (List.append_cancel_left hmore').symm⟩
      obtain ⟨more', hmore'⟩ := hmore
      have hshort := hpart.2 msg more' hmore'
      rw [hreceived, ← htail, wireStream_append, wireStream_cons] at hle
      simp only [List.length_append, length_htonl] at hle
      omega

theorem readInv_read {accepts : Bytes → Bool} {msgs : List Bytes} {received chunk : Bytes}
    {client : LogClient} (haccepts : ∀ msg ∈ msgs, accepts msg = true)
    (hsmall : ∀ msg ∈ msgs, msg.length ≤ messageSizeMax) (h : ReadInv msgs received client)
    (hsent : received ++ chunk <+: wireStream msgs) (fresh : Nat → Nat → UInt8)
    (hne : chunk ≠ []) (hspace : chunk.length ≤ client.buf.size - client.buf.len)
    (hmeets : LeavesRest client chunk) :
    ReadInv msgs (received ++ chunk) (serverMsgCb fresh accepts client chunk) := by
  obtain ⟨more, rest, hmsgs, hreceived, -, hoff, hlen, hbytes, hfits, halloc⟩ := h.split
  -- The bytes on hand are the start of what is still to be handled.
  have hpending : rest ++ chunk <+: wireStream more := by
    rw [hmsgs, hreceived, wireStream_append, List.append_assoc] at hsent
    exact (List.prefix_append_right_inj _).mp hsent
  obtain ⟨whole, more', rest', rfl, hsplit, hpart⟩ := exists_partOf hpending
  have hon : client.buf.data.bytes 0 client.buf.len ++ chunk = wireStream whole ++ rest' := by
    rw [hlen, hbytes, hsplit]
  obtain ⟨hshort, hlong⟩ := hmeets whole rest' hon
  have hheader := hpart.header (fun msg hmsg => hsmall msg (by
    rw [hmsgs]
    exact List.mem_append_right _ (List.mem_append_right _ hmsg)))
  unfold serverMsgCb
  rw [if_neg hne, Block.write_eq_some (by omega)]
  dsimp only
  have hdata : (client.buf.data.overwrite client.buf.len chunk).bytes 0
      (client.buf.len + chunk.length) = wireStream whole ++ rest' := by
    rw [Block.bytes_add, Block.bytes_overwrite_before (by omega), Nat.zero_add,
      Block.bytes_overwrite_self, hon]
  have htotal : client.buf.len + chunk.length = (wireStream whole ++ rest').length := by
    rw [← hdata, Block.length_bytes]
  rw [List.length_append] at htotal
  have hstart : (client.buf.data.overwrite client.buf.len chunk).bytes client.buf.off
      (client.buf.len + chunk.length - client.buf.off) = wireStream whole ++ rest' := by
    rw [hoff, Nat.sub_zero]
    exact hdata
  have hloop := @messageLoop_whole fresh accepts
    { client.buf with
      data := client.buf.data.overwrite client.buf.len chunk
      len := client.buf.len + chunk.length }
    client.handled whole rest'
    (fun msg hmsg => haccepts msg (by
      rw [hmsgs]
      exact List.mem_append_right _ (List.mem_append_left _ hmsg)))
    (fun msg hmsg => hsmall msg (by
      rw [hmsgs]
      exact List.mem_append_right _ (List.mem_append_left _ hmsg)))
    hstart (by
      show client.buf.len + chunk.length ≤ client.buf.data.allocated
      omega)
  dsimp only at hloop
  rw [hloop, hoff, Nat.zero_add]
  obtain ⟨-, -, hleft⟩ := bytes_split hdata
  rw [Nat.zero_add] at hleft
  obtain ⟨buf', hend, hholds⟩ := @messageLoop_rest fresh accepts
    { client.buf with
      data := client.buf.data.overwrite client.buf.len chunk
      len := client.buf.len + chunk.length
      off := (wireStream whole).length }
    (client.handled ++ whole) rest' (by
      show (client.buf.data.overwrite client.buf.len chunk).bytes (wireStream whole).length
        (client.buf.len + chunk.length - (wireStream whole).length) = rest'
      rw [htotal, Nat.add_sub_cancel_left]
      exact hleft)
    (by
      show (wireStream whole).length ≤ client.buf.len + chunk.length
      omega)
    (by
      show client.buf.len + chunk.length ≤ client.buf.size
      omega)
    halloc hheader
    (fun hlt => by
      obtain ⟨tail, htail⟩ := hshort hlt
      exact (bytes_split (hdata.trans (htail.trans hon).symm)).2.1)
    (fun hfour => by
      rcases hlong hfour (hheader hfour).2 with hroom | ⟨hsome, hpow⟩
      · exact Or.inl hroom
      · refine Or.inr ⟨?_, hpow⟩
        cases whole with
        | nil => exact absurd rfl hsome
        | cons msg whole =>
          show (wireStream (msg :: whole)).length > 0
          rw [wireStream_cons, List.length_append, length_htonl]
          omega)
  rw [hend]
  refine ⟨rfl, more', rest', ?_, ?_, hpart, hholds⟩
  · rw [hmsgs, List.append_assoc]
  · rw [hreceived, wireStream_append, List.append_assoc, List.append_assoc, hsplit]

theorem readInv_start (msgs : List Bytes) (content : Nat → UInt8) :
    ReadInv msgs [] (LogClient.start content) := by
  refine ⟨rfl, msgs, [], rfl, rfl, ⟨List.nil_prefix, fun msg more _ => ?_⟩, rfl, rfl, rfl, ?_, ?_⟩
  · show 0 < 4 + msg.length
    omega
  · exact Nat.zero_le _
  · exact Nat.le_refl _

/-- In every run whose reads meet no defect, the messages come out as they were sent. -/
theorem serverMsgCb_decodes (accepts : Bytes → Bool) (msgs : List Bytes) (received : Bytes)
    (client : LogClient) (haccepts : ∀ msg ∈ msgs, accepts msg = true)
    (hsmall : ∀ msg ∈ msgs, msg.length ≤ messageSizeMax) (hsent : received <+: wireStream msgs)
    (h : Receives accepts LeavesRest received client) : Decoded msgs received client := by
  have hinv : ReadInv msgs received client := by
    induction h with
    | start content => exact readInv_start msgs content
    | read _ chunk fresh _ hne hspace hmeets ih =>
      have hbefore := (List.prefix_append _ chunk).trans hsent
      exact readInv_read haccepts hsmall (ih hbefore) hsent fresh hne hspace hmeets
  exact hinv.decoded

theorem serverMsgCb_decodes_one :
    Decoded [[7]] ([] ++ [0, 0, 0, 1, 7])
      (serverMsgCb (fun _ _ => 0) (fun _ => true) (LogClient.start (fun _ => 0))
        [0, 0, 0, 1, 7]) := by
  have hmeets : LeavesRest (LogClient.start (fun _ => 0)) [0, 0, 0, 1, 7] := by
    intro whole rest hon
    have hbytes : ([0, 0, 0, 1, 7] : Bytes) = wireStream whole ++ rest := hon
    cases whole with
    | nil =>
      obtain rfl : [0, 0, 0, 1, 7] = rest := hbytes
      exact ⟨fun h => absurd h (by decide), fun _ h => absurd h (by decide)⟩
    | cons msg whole =>
      rw [wireStream_cons, List.append_assoc, List.append_assoc] at hbytes
      have htotal := congrArg List.length hbytes
      simp only [List.length_append, length_htonl, List.length_cons, List.length_nil] at htotal
      have hheader : ([0, 0, 0, 1] : Bytes) = htonl msg.length :=
        (List.append_inj
          (show ([0, 0, 0, 1] : Bytes) ++ [7] = htonl msg.length ++ _ from hbytes) rfl).1
      have hone : msg.length = 1 := by
        rw [← ntohl_htonl (show msg.length < 2 ^ 32 by omega), ← hheader]
        rfl
      obtain rfl : rest = [] := List.length_eq_zero_iff.mp (by omega)
      exact ⟨fun _ => List.nil_prefix, fun h => absurd h (by decide)⟩
  refine serverMsgCb_decodes (fun _ => true) [[7]] _ _ (fun _ _ => rfl) (by decide) (by decide)
    (Receives.read (Receives.start (fun _ => 0)) [0, 0, 0, 1, 7] (fun _ _ => 0) rfl (by decide) ?_
      hmeets)
  show 5 ≤ 65536 - 0
  omega

/-- A read ends inside the second length: its bytes are lost, and those of the first length are read
in their place. -/
theorem not_serverMsgCb_decodes :
    ¬ ∀ (accepts : Bytes → Bool) (msgs : List Bytes) (received : Bytes) (client : LogClient),
      (∀ msg ∈ msgs, accepts msg = true) → (∀ msg ∈ msgs, msg.length ≤ messageSizeMax) →
      received <+: wireStream msgs → Receives accepts (fun _ _ => True) received client →
      Decoded msgs received client := by
  intro hall
  have hfirst : Receives (fun _ => true) (fun _ _ => True) _ _ := Receives.read
    (Receives.start (fun _ => 0)) (htonl 20 ++ List.replicate 20 1 ++ [0, 0, 1])
    (fun _ _ => 0) rfl (by decide) (by decide) trivial
  have hsecond := Receives.read hfirst (5 :: List.replicate 261 1) (fun _ _ => 0)
    (by decide +kernel) (by decide) (by decide +kernel) trivial
  have hdecoded := hall _ [List.replicate 20 1, List.replicate 261 1] _ _ (fun _ _ => rfl)
    (by decide +kernel) (by decide +kernel) hsecond
  have hbad : (serverMsgCb (fun _ _ => 0) (fun _ => true)
      (serverMsgCb (fun _ _ => 0) (fun _ => true) (LogClient.start (fun _ => 0))
        (htonl 20 ++ List.replicate 20 1 ++ [0, 0, 1])) (5 :: List.replicate 261 1)).status = .bad := by
    decide +kernel
  exact ReadStatus.noConfusion (hdecoded.running.symm.trans hbad)

end NextBSD.Iolog
