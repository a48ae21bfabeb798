import Mathlib
import NextBSD.Iolog.LogClientWrites

/-!
# Order of sent messages

What is sent and what waits in the write queue are the messages in the order of queueing.
-/

namespace NextBSD.Iolog

open ClientClosure

def ConnectionBuffer.pending (buf : ConnectionBuffer) : Bytes :=
  buf.data.bytes buf.off (buf.len - buf.off)

/-- A buffer on the write queue has bytes to send and they are in its memory. -/
structure Waiting (buf : ConnectionBuffer) : Prop where
  off_lt : buf.off < buf.len
  len_le_size : buf.len ≤ buf.size
  len_le : buf.len ≤ messageSizeMax + 4

/-- What queueing and writing keep.  `held` are the buffers on neither list. -/
structure SendInv (held : List Nat) (queued : List Bytes) (closure : ClientClosure) : Prop where
  nodup : closure.allocated.Nodup
  perm : (held ++ (closure.writeBufs ++ closure.freeBufs)).Perm closure.allocated
  sized : ∀ a ∈ closure.allocated,
    (closure.buffers a).size ≤ (closure.buffers a).data.allocated
  unsent : ∀ a ∈ held ++ closure.freeBufs, (closure.buffers a).off = 0
  waiting : ∀ a ∈ closure.writeBufs, Waiting (closure.buffers a)
  stream : closure.sent ++ closure.writeBufs.flatMap (fun a => (closure.buffers a).pending) =
    wireStream queued

structure SameBufs (closure closure' : ClientClosure) : Prop where
  writeBufs : closure'.writeBufs = closure.writeBufs
  freeBufs : closure'.freeBufs = closure.freeBufs
  buffers : closure'.buffers = closure.buffers
  allocated : closure'.allocated = closure.allocated
  sent : closure'.sent = closure.sent
  completions : closure'.completions = closure.completions

variable {closure closure' : ClientClosure} {queued : List Bytes} {held : List Nat} {addr : Nat}
  {buf : ConnectionBuffer} {msg : Bytes}

theorem SendInv.of_same (h : SendInv held queued closure) (hsame : SameBufs closure closure') :
    SendInv held queued closure' := by
  constructor
  · rw [hsame.allocated]
    exact h.nodup
  · rw [hsame.writeBufs, hsame.freeBufs, hsame.allocated]
    exact h.perm
  · rw [hsame.allocated, hsame.buffers]
    exact h.sized
  · rw [hsame.freeBufs, hsame.buffers]
    exact h.unsent
  · rw [hsame.writeBufs, hsame.buffers]
    exact h.waiting
  · rw [hsame.sent, hsame.writeBufs, hsame.buffers]
    exact h.stream

theorem sameBufs_bad (closure : ClientClosure) : SameBufs closure closure.bad := by
  unfold bad
  split
  · exact ⟨rfl, rfl, rfl, rfl, rfl, rfl⟩
  · exact ⟨rfl, rfl, rfl, rfl, rfl, rfl⟩

theorem sameBufs_advanceState (closure : ClientClosure) :
    SameBufs closure (advanceState closure).2 := by
  unfold advanceState
  split
  · exact ⟨rfl, rfl, rfl, rfl, rfl, rfl⟩
  · exact ⟨rfl, rfl, rfl, rfl, rfl, rfl⟩
  · exact ⟨rfl, rfl, rfl, rfl, rfl, rfl⟩
  · exact ⟨rfl, rfl, rfl, rfl, rfl, rfl⟩
  · exact ⟨rfl, rfl, rfl, rfl, rfl, rfl⟩
  · exact ⟨rfl, rfl, rfl, rfl, rfl, rfl⟩
  · split
    · exact ⟨rfl, rfl, rfl, rfl, rfl, rfl⟩
    · exact ⟨rfl, rfl, rfl, rfl, rfl, rfl⟩
  · exact ⟨rfl, rfl, rfl, rfl, rfl, rfl⟩
  · exact ⟨rfl, rfl, rfl, rfl, rfl, rfl⟩
  · exact ⟨rfl, rfl, rfl, rfl, rfl, rfl⟩

theorem SendInv.disjoint (h : SendInv held queued closure) :
    (held ++ (closure.writeBufs ++ closure.freeBufs)).Nodup := h.perm.nodup_iff.mpr h.nodup

theorem SendInv.mem_allocated (h : SendInv held queued closure) (hmem : addr ∈ closure.writeBufs) :
    addr ∈ closure.allocated :=
  h.perm.mem_iff.mp (List.mem_append_right _ (List.mem_append_left _ hmem))

theorem flatMap_pending_update {l : List Nat} {buffers : Nat → ConnectionBuffer} (ha : addr ∉ l) :
    l.flatMap (fun a => (Function.update buffers addr buf a).pending) =
      l.flatMap (fun a => (buffers a).pending) := by
  unfold List.flatMap
  apply congrArg List.flatten
  apply List.map_congr_left
  intro a hmem
  have hne : a ≠ addr := fun heq => ha (heq ▸ hmem)
  rw [Function.update_of_ne hne]

theorem forall_update {P : ConnectionBuffer → Prop} {l : List Nat}
    {buffers : Nat → ConnectionBuffer} (h : ∀ a ∈ l, a ≠ addr → P (buffers a)) (hbuf : P buf) :
    ∀ a ∈ l, P (Function.update buffers addr buf a) := by
  intro a ha
  by_cases heq : a = addr
  · rw [heq, Function.update_self]
    exact hbuf
  · rw [Function.update_of_ne heq]
    exact h a ha heq

/-! ## Queueing -/

theorem le_sudoPow2Roundup (len : Nat) : len ≤ sudoPow2Roundup len := by
  unfold sudoPow2Roundup
  by_cases hlt : len < 64
  · rw [if_pos hlt]
    omega
  · rw [if_neg hlt]
    have hlog := Nat.lt_log2_self (n := len - 1)
    omega

theorem resizeBuf_fits (content : Nat → UInt8) (hsized : buf.size ≤ buf.data.allocated)
    (len : Nat) :
    ∃ buf', ClientClosure.resizeBuf content buf len = some buf' ∧ len ≤ buf'.size ∧
      buf'.size ≤ buf'.data.allocated ∧ buf'.off = buf.off := by
  have hround := le_sudoPow2Roundup len
  unfold ClientClosure.resizeBuf
  by_cases hlen : len > buf.size
  · rw [if_pos hlen]
    simp only
    rw [if_neg (by omega)]
    exact ⟨_, rfl, hround, Nat.le_refl _, rfl⟩
  · rw [if_neg hlen]
    exact ⟨buf, rfl, by omega, hsized, rfl⟩

theorem packBuf_pending (msg : Bytes) (hoff : buf.off = 0)
    (hfits : msg.length + 4 ≤ buf.data.allocated) :
    ∃ buf', packBuf buf msg = some buf' ∧ buf'.off = 0 ∧ buf'.len = msg.length + 4 ∧
      buf'.size = buf.size ∧ buf'.data.allocated = buf.data.allocated ∧
      buf'.pending = htonl msg.length ++ msg := by
  unfold packBuf
  rw [Block.write_eq_some (by rw [length_htonl]; omega), Option.bind_some]
  rw [Block.write_eq_some (b := buf.data.overwrite 0 _)
    (show 4 + msg.length ≤ buf.data.allocated by omega)]
  refine ⟨_, rfl, hoff, rfl, rfl, rfl, ?_⟩
  show Block.bytes _ buf.off (msg.length + 4 - buf.off) = _
  rw [hoff, Nat.sub_zero, Nat.add_comm, Block.bytes_add, Nat.zero_add,
    Block.bytes_overwrite_self, Block.bytes_overwrite_before (by omega)]
  exact congrArg (· ++ msg) (Block.bytes_overwrite_self buf.data 0 (htonl msg.length))

theorem getFreeBuf_keeps (h : SendInv [] queued closure) (hfresh : addr ∉ closure.allocated) :
    SendInv [(closure.getFreeBuf addr).1] queued (closure.getFreeBuf addr).2 ∧
      (closure.getFreeBuf addr).2.completions = closure.completions := by
  have hperm := h.perm
  rw [List.nil_append] at hperm
  cases hfree : closure.freeBufs with
  | nil =>
    have htaken : closure.getFreeBuf addr = (addr, closure.callocBuf addr) := by
      unfold getFreeBuf
      rw [hfree]
    rw [htaken]
    have hnew : addr ∉ closure.writeBufs := fun hmem =>
      hfresh (hperm.mem_iff.mp (List.mem_append_left _ hmem))
    refine ⟨⟨List.nodup_cons.mpr ⟨hfresh, h.nodup⟩, ?_, ?_, ?_, ?_, ?_⟩, rfl⟩
    · exact hperm.cons addr
    · apply forall_update (P := fun buf => buf.size ≤ buf.data.allocated)
      · intro a ha hne
        exact h.sized a ((List.mem_cons.mp ha).resolve_left hne)
      · exact Nat.le_refl 0
    · show ∀ a ∈ [addr] ++ closure.freeBufs, _
      rw [hfree]
      intro a ha
      rw [List.mem_singleton.mp ha]
      show (Function.update closure.buffers addr _ addr).off = 0
      rw [Function.update_self]
    · intro a ha
      show Waiting (Function.update closure.buffers addr _ a)
      have hne : a ≠ addr := fun heq => hnew (heq ▸ ha)
      rw [Function.update_of_ne hne]
      exact h.waiting a ha
    · show closure.sent ++ closure.writeBufs.flatMap
        (fun a => (Function.update closure.buffers addr _ a).pending) = _
      rw [flatMap_pending_update hnew]
      exact h.stream
  | cons first rest =>
    have htaken : closure.getFreeBuf addr = (first, closure.takeFree first) := by
      unfold getFreeBuf
      rw [hfree]
    rw [htaken]
    have herase : closure.freeBufs.erase first = rest := by
      rw [hfree, List.erase_cons_head]
    refine ⟨⟨h.nodup, ?_, h.sized, ?_, h.waiting, h.stream⟩, rfl⟩
    · show (first :: (closure.writeBufs ++ closure.freeBufs.erase first)).Perm closure.allocated
      rw [herase]
      rw [hfree] at hperm
      exact List.perm_middle.symm.trans hperm
    · show ∀ a ∈ first :: closure.freeBufs.erase first, _
      rw [herase, ← hfree]
      exact h.unsent

theorem freeBuf_keeps (h : SendInv [addr] queued closure) :
    SendInv [] queued (closure.freeBuf addr) := by
  have hperm : (closure.writeBufs ++ closure.freeBufs).Perm (closure.allocated.erase addr) := by
    have herase := h.perm.erase addr
    rwa [List.singleton_append, List.erase_cons_head] at herase
  refine ⟨h.nodup.erase addr, hperm, ?_, ?_, h.waiting, h.stream⟩
  · intro a ha
    exact h.sized a (List.mem_of_mem_erase ha)
  · intro a ha
    exact h.unsent a (List.mem_append_right _ ha)

theorem enqueue_keeps (h : SendInv [addr] queued closure) (hlen : buf.len = msg.length + 4)
    (hsmall : msg.length ≤ messageSizeMax) (hfits : buf.len ≤ buf.size)
    (hsized : buf.size ≤ buf.data.allocated) (hoff : buf.off = 0)
    (hpending : buf.pending = htonl msg.length ++ msg) :
    SendInv [] (queued ++ [msg])
      { closure with
        buffers := Function.update closure.buffers addr buf
        writeBufs := closure.writeBufs ++ [addr] } := by
  have hdisjoint := h.disjoint
  rw [List.singleton_append, List.nodup_cons, List.mem_append, not_or] at hdisjoint
  refine ⟨h.nodup, ?_, ?_, ?_, ?_, ?_⟩
  · show ((closure.writeBufs ++ [addr]) ++ closure.freeBufs).Perm closure.allocated
    rw [List.append_assoc]
    exact List.perm_middle.trans h.perm
  · apply forall_update (P := fun buf => buf.size ≤ buf.data.allocated)
    · intro a ha _
      exact h.sized a ha
    · exact hsized
  · apply forall_update (P := fun buf => buf.off = 0)
    · intro a ha _
      exact h.unsent a (List.mem_append_right _ ha)
    · exact hoff
  · apply forall_update
    · intro a ha hne
      exact h.waiting a ((List.mem_append.mp ha).resolve_right
        (fun hmem => hne (List.mem_singleton.mp hmem)))
    · exact ⟨by omega, hfits, by omega⟩
  · show closure.sent ++ (closure.writeBufs ++ [addr]).flatMap
      (fun a => (Function.update closure.buffers addr buf a).pending) = _
    rw [List.flatMap_append, flatMap_pending_update hdisjoint.1.1, List.flatMap_singleton,
      Function.update_self, hpending, ← List.append_assoc, h.stream, wireStream_append]
    unfold wireStream
    rw [List.flatMap_singleton]

theorem fmtClientMessage_keeps (h : SendInv [] queued closure) (hfresh : addr ∉ closure.allocated)
    (content : Nat → UInt8) (msg : Bytes) :
    ∃ closure', closure.fmtClientMessage addr content msg =
        some (decide (msg.length ≤ messageSizeMax), closure') ∧
      SendInv [] (if msg.length ≤ messageSizeMax then queued ++ [msg] else queued) closure' ∧
      closure'.completions = closure.completions ∧
      (msg.length ≤ messageSizeMax → closure'.writeBufs ≠ []) := by
  obtain ⟨htaken, hcompletions⟩ := getFreeBuf_keeps h hfresh
  unfold fmtClientMessage
  generalize closure.getFreeBuf addr = taken at htaken hcompletions
  obtain ⟨a, taken⟩ := taken
  simp only at htaken hcompletions ⊢
  by_cases hlarge : msg.length > messageSizeMax
  · have hnot : ¬ msg.length ≤ messageSizeMax := by omega
    rw [if_pos hlarge, if_neg hnot, decide_eq_false hnot]
    exact ⟨_, rfl, freeBuf_keeps htaken, hcompletions, fun hle => absurd hle hnot⟩
  · have hsmall : msg.length ≤ messageSizeMax := by omega
    have hmem : a ∈ taken.allocated := htaken.perm.mem_iff.mp List.mem_cons_self
    have hoff := htaken.unsent a List.mem_cons_self
    obtain ⟨sized, hresize, hroom, hsized, hsame⟩ :=
      resizeBuf_fits content (htaken.sized a hmem) (msg.length + 4)
    obtain ⟨packed, hpack, hzero, hlen, hsize, halloc, hpending⟩ :=
      packBuf_pending msg (hsame.trans hoff) (Nat.le_trans hroom hsized)
    rw [if_neg hlarge, if_pos hsmall, decide_eq_true hsmall, hresize]
    simp only
    rw [hpack]
    refine ⟨_, rfl, enqueue_keeps htaken hlen hsmall ?_ ?_ hzero hpending, hcompletions, ?_⟩
    · rw [hlen, hsize]
      exact hroom
    · rw [hsize, halloc]
      exact hsized
    · intro _
      exact List.append_ne_nil_of_right_ne_nil _ (List.cons_ne_nil a [])

/-! ## Writing -/

theorem finishBuf_same (closure : ClientClosure) (addr : Nat) :
    SameBufs
      { closure.freeSent addr with
        completions :=
          closure.completions + if (closure.freeSent addr).writeBufs = [] then 1 else 0 }
      (closure.finishBuf addr) := by
  unfold finishBuf
  simp only
  by_cases hempty : (closure.freeSent addr).writeBufs = []
  · rw [if_pos hempty, if_pos hempty]
    have hsame := sameBufs_advanceState
      { closure.freeSent addr with writeEv := false, completions := closure.completions + 1 }
    split
    · next advanced hadvance =>
      have hsnd : (advanceState { closure.freeSent addr with
          writeEv := false, completions := closure.completions + 1 }).2 = advanced :=
        congrArg Prod.snd hadvance
      rw [hsnd] at hsame
      exact ⟨hsame.writeBufs, hsame.freeBufs, hsame.buffers, hsame.allocated, hsame.sent,
        hsame.completions⟩
    · next advanced hadvance =>
      have hsnd : (advanceState { closure.freeSent addr with
          writeEv := false, completions := closure.completions + 1 }).2 = advanced :=
        congrArg Prod.snd hadvance
      rw [hsnd] at hsame
      have hbad := sameBufs_bad advanced
      exact ⟨hbad.writeBufs.trans hsame.writeBufs, hbad.freeBufs.trans hsame.freeBufs,
        hbad.buffers.trans hsame.buffers, hbad.allocated.trans hsame.allocated,
        hbad.sent.trans hsame.sent, hbad.completions.trans hsame.completions⟩
  · rw [if_neg hempty, if_neg hempty]
    exact ⟨rfl, rfl, rfl, rfl, rfl, rfl⟩

theorem freeFirst_keeps {rest : List Nat} (h : SendInv [] queued closure)
    (hbufs : closure.writeBufs = addr :: rest) (completions : Nat) (hoff : buf.off = 0)
    (hsized : buf.size ≤ buf.data.allocated) :
    SendInv [] queued
      { closure with
        sent := closure.sent ++ (closure.buffers addr).pending
        buffers := Function.update closure.buffers addr buf
        writeBufs := rest
        freeBufs := closure.freeBufs ++ [addr]
        completions := completions } := by
  have hperm := h.perm
  rw [List.nil_append, hbufs] at hperm
  have hnot : addr ∉ rest := by
    have hdisjoint := h.disjoint
    rw [List.nil_append, hbufs, List.cons_append, List.nodup_cons, List.mem_append] at hdisjoint
    exact fun hmem => hdisjoint.1 (Or.inl hmem)
  refine ⟨h.nodup, ?_, ?_, ?_, ?_, ?_⟩
  · show (rest ++ (closure.freeBufs ++ [addr])).Perm closure.allocated
    rw [← List.append_assoc]
    exact (List.perm_append_singleton addr _).trans hperm
  · apply forall_update (P := fun buf => buf.size ≤ buf.data.allocated)
    · intro a ha _
      exact h.sized a ha
    · exact hsized
  · apply forall_update (P := fun buf => buf.off = 0) (l := closure.freeBufs ++ [addr])
    · intro a ha hne
      exact h.unsent a ((List.mem_append.mp ha).resolve_right
        (fun hmem => hne (List.mem_singleton.mp hmem)))
    · exact hoff
  · intro a ha
    show Waiting (Function.update closure.buffers addr buf a)
    have hne : a ≠ addr := fun heq => hnot (heq ▸ ha)
    rw [Function.update_of_ne hne]
    apply h.waiting
    rw [hbufs]
    exact List.mem_cons_of_mem _ ha
  · show (closure.sent ++ (closure.buffers addr).pending) ++ rest.flatMap
      (fun a => (Function.update closure.buffers addr buf a).pending) = _
    have hstream := h.stream
    rw [hbufs, List.flatMap_cons, ← List.append_assoc] at hstream
    rw [flatMap_pending_update hnot]
    exact hstream

theorem sendPart_keeps {rest : List Nat} {nwritten : Nat} (h : SendInv [] queued closure)
    (hbufs : closure.writeBufs = addr :: rest)
    (hpart : (closure.buffers addr).off + nwritten < (closure.buffers addr).len) :
    SendInv [] queued
      { closure with
        sent := closure.sent ++ (closure.buffers addr).pending.take nwritten
        buffers := Function.update closure.buffers addr
          { closure.buffers addr with off := (closure.buffers addr).off + nwritten } } := by
  have hmem : addr ∈ closure.writeBufs := by
    rw [hbufs]
    exact List.mem_cons_self
  have hdisjoint := h.disjoint
  rw [List.nil_append, hbufs, List.cons_append, List.nodup_cons, List.mem_append, not_or]
    at hdisjoint
  have hwaiting := h.waiting addr hmem
  refine ⟨h.nodup, h.perm, ?_, ?_, ?_, ?_⟩
  · apply forall_update (P := fun buf => buf.size ≤ buf.data.allocated)
    · intro a ha _
      exact h.sized a ha
    · exact h.sized addr (h.mem_allocated hmem)
  · intro a ha
    show (Function.update closure.buffers addr _ a).off = 0
    have hne : a ≠ addr := fun heq => hdisjoint.1.2 (heq ▸ ha)
    rw [Function.update_of_ne hne]
    exact h.unsent a ha
  · apply forall_update
    · intro a ha _
      exact h.waiting a ha
    · exact ⟨hpart, hwaiting.len_le_size, hwaiting.len_le⟩
  · show (closure.sent ++ (closure.buffers addr).pending.take nwritten) ++
      closure.writeBufs.flatMap (fun a => (Function.update closure.buffers addr _ a).pending) = _
    have hstream := h.stream
    rw [hbufs, List.flatMap_cons] at hstream ⊢
    rw [Function.update_self, flatMap_pending_update hdisjoint.1.1, ← hstream, List.append_assoc,
      ← List.append_assoc ((closure.buffers addr).pending.take nwritten)]
    apply congrArg (closure.sent ++ ·)
    apply congrArg (· ++ rest.flatMap (fun a => (closure.buffers a).pending))
    have hdrop : (closure.buffers addr).pending.drop nwritten =
        ConnectionBuffer.pending
          { closure.buffers addr with off := (closure.buffers addr).off + nwritten } := by
      unfold ConnectionBuffer.pending
      rw [Block.drop_bytes, Nat.sub_sub]
    rw [← hdrop, List.take_append_drop]

/-- The completion step runs once where the queue becomes empty, and otherwise not. -/
def CompletesWhenEmpty (closure closure' : ClientClosure) : Prop :=
  closure'.completions = closure.completions +
    if closure.writeBufs ≠ [] ∧ closure'.writeBufs = [] then 1 else 0

theorem completesWhenEmpty_same (hcompletions : closure'.completions = closure.completions)
    (hbufs : closure.writeBufs ≠ [] → closure'.writeBufs ≠ []) :
    CompletesWhenEmpty closure closure' := by
  unfold CompletesWhenEmpty
  rw [if_neg (fun hempty => hbufs hempty.1 hempty.2)]
  exact hcompletions

theorem SendInv.idle (h : SendInv [] queued closure) (hsame : SameBufs closure closure') :
    SendInv [] queued closure' ∧ CompletesWhenEmpty closure closure' := by
  refine ⟨h.of_same hsame, completesWhenEmpty_same hsame.completions ?_⟩
  rw [hsame.writeBufs]
  exact id

theorem countWritten_keeps {rest : List Nat} {nwritten : Nat} (h : SendInv [] queued closure)
    (hbufs : closure.writeBufs = addr :: rest)
    (hle : nwritten ≤ (closure.buffers addr).len - (closure.buffers addr).off) :
    ∀ closure', closure' = countWritten
        { closure with sent := closure.sent ++ (closure.buffers addr).pending.take nwritten }
        addr nwritten →
      SendInv [] queued closure' ∧ CompletesWhenEmpty closure closure' := by
  have hmem : addr ∈ closure.writeBufs := by
    rw [hbufs]
    exact List.mem_cons_self
  have hwaiting := h.waiting addr hmem
  have hsmall := hwaiting.len_le
  have hoff := hwaiting.off_lt
  have hmax : ¬ nwritten > sizeMax - (closure.buffers addr).off := by
    unfold sizeMax
    unfold messageSizeMax at hsmall
    omega
  intro closure' hclosure'
  unfold countWritten at hclosure'
  simp only at hclosure'
  rw [if_neg hmax] at hclosure'
  by_cases hall : (closure.buffers addr).off + nwritten = (closure.buffers addr).len
  · rw [if_pos hall] at hclosure'
    have htake : (closure.buffers addr).pending.take nwritten = (closure.buffers addr).pending := by
      apply List.take_of_length_le
      unfold ConnectionBuffer.pending
      rw [Block.length_bytes]
      omega
    have hsized := h.sized addr (h.mem_allocated hmem)
    have hsame := finishBuf_same
      { closure with
        sent := closure.sent ++ (closure.buffers addr).pending.take nwritten
        buffers := Function.update closure.buffers addr
          { closure.buffers addr with off := (closure.buffers addr).off + nwritten } } addr
    rw [← hclosure'] at hsame
    have herase : closure.writeBufs.erase addr = rest := by
      rw [hbufs, List.erase_cons_head]
    unfold freeSent at hsame
    simp only [Function.update_self, Function.update_idem, herase, htake] at hsame
    have hcompletions := hsame.completions
    have hwriteBufs := hsame.writeBufs
    refine ⟨SendInv.of_same ?_ hsame, ?_⟩
    · apply freeFirst_keeps h hbufs
      · rfl
      · exact hsized
    · unfold CompletesWhenEmpty
      rw [hcompletions, hwriteBufs, hbufs]
      simp only [ne_eq, reduceCtorEq, not_false_eq_true, true_and]
  · rw [if_neg hall] at hclosure'
    rw [hclosure']
    exact ⟨sendPart_keeps h hbufs (by omega), completesWhenEmpty_same rfl (fun hne => hne)⟩

theorem writeBuf_keeps {rest : List Nat} {result : WriteResult} (h : SendInv [] queued closure)
    (hbufs : closure.writeBufs = addr :: rest) (haccepts : closure.Accepts result) :
    ∃ closure', closure.writeBuf addr result = some closure' ∧ SendInv [] queued closure' ∧
      CompletesWhenEmpty closure closure' := by
  have hmem : addr ∈ closure.writeBufs := by
    rw [hbufs]
    exact List.mem_cons_self
  have hwaiting := h.waiting addr hmem
  have hsized := h.sized addr (h.mem_allocated hmem)
  have hoff := hwaiting.off_lt
  have hsize := hwaiting.len_le_size
  have hread : (closure.buffers addr).data.read (closure.buffers addr).off
      ((closure.buffers addr).len - (closure.buffers addr).off) =
        some (closure.buffers addr).pending := Block.read_eq_some (by omega)
  unfold writeBuf
  simp only [hread, Option.map_some]
  cases result with
  | timeout => exact ⟨_, rfl, h.idle (sameBufs_bad closure)⟩
  | failed => exact ⟨_, rfl, h.idle (sameBufs_bad closure)⟩
  | wantRead => exact ⟨_, rfl, h.idle ⟨rfl, rfl, rfl, rfl, rfl, rfl⟩⟩
  | wantWrite => exact ⟨_, rfl, h.idle ⟨rfl, rfl, rfl, rfl, rfl, rfl⟩⟩
  | wrote nwritten =>
    have hle := haccepts nwritten rfl addr (by rw [hbufs]; rfl)
    exact ⟨_, rfl, countWritten_keeps h hbufs hle _ rfl⟩

theorem clientMsgCb_keeps {result : WriteResult} (h : SendInv [] queued closure)
    (haccepts : closure.Accepts result) :
    ∃ closure', closure.clientMsgCb result = some closure' ∧ SendInv [] queued closure' ∧
      CompletesWhenEmpty closure closure' := by
  unfold clientMsgCb
  by_cases htimeout : result = .timeout
  · rw [if_pos htimeout]
    exact ⟨_, rfl, h.idle (sameBufs_bad closure)⟩
  · rw [if_neg htimeout]
    split
    · exact ⟨_, rfl, h.idle (sameBufs_bad closure)⟩
    · rename_i addr rest hbufs
      exact writeBuf_keeps h hbufs haccepts

theorem Sends.inv (h : Sends queued closure) : SendInv [] queued closure := by
  induction h with
  | start closure hwrite hfree hallocated hsent =>
    constructor
    · rw [hallocated]
      exact List.nodup_nil
    · rw [hwrite, hfree, hallocated]
      exact List.Perm.refl _
    · rw [hallocated]
      exact fun a ha => absurd ha List.not_mem_nil
    · rw [hfree]
      exact fun a ha => absurd ha List.not_mem_nil
    · rw [hwrite]
      exact fun a ha => absurd ha List.not_mem_nil
    · rw [hwrite, hsent]
      rfl
  | @message queued closure closure' ok h addr content msg hfresh hf ih =>
    obtain ⟨next, hnext, hkeeps, -⟩ := fmtClientMessage_keeps ih hfresh content msg
    rw [hf] at hnext
    obtain ⟨rfl, rfl⟩ := Prod.mk.inj (Option.some.inj hnext)
    simp only [decide_eq_true_eq]
    exact hkeeps
  | callback h result haccepts hc ih =>
    obtain ⟨next, hnext, hkeeps, -⟩ := clientMsgCb_keeps ih haccepts
    rw [hc] at hnext
    rw [Option.some.inj hnext]
    exact hkeeps
  | caller h state ih => exact ih.of_same ⟨rfl, rfl, rfl, rfl, rfl, rfl⟩

def idleClosure : ClientClosure where
  logIo := true
  ignoreLogErrors := false
  state := .sendIo
  disabled := false
  writeInsteadOfRead := false
  readEv := true
  writeEv := true
  loopbreak := false
  writeBufs := []
  freeBufs := []
  buffers := fun _ =>
    { data := { allocated := 0, byte := fun _ => 0 }, size := 0, len := 0, off := 0 }
  allocated := []
  sent := []
  completions := 0

end NextBSD.Iolog
