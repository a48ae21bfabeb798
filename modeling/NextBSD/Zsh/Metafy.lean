import NextBSD.Library.Run
import NextBSD.Zsh.HistFile

/-!
# utils.c: metafication

Memory is a list of bytes from the start of a string on, and what reads or writes outside of it is
`none`.  An allocator gives memory for what it is asked for, if the number is an `int`.
-/

namespace NextBSD.Zsh

open Rounds

def poke (mem : Bytes) (i : Nat) (c : UInt8) : Option Bytes :=
  if i < mem.length then some (mem.set i c) else none

inductive MetaHeap where
  | realloc
  | hrealloc
  | useheap
  | noalloc
  | static
  | alloc
  | dup
  | heapdup
  deriving DecidableEq, Repr

/-- The loop that expands a string from its end: `p` and `t` are where it reads and writes, and
`escaped` is its `meta`, the characters that are yet to be escaped. -/
structure MetaLoop where
  mem : Bytes
  p : Nat
  t : Nat
  escaped : Nat
  deriving DecidableEq, Repr

def metaStep (s : MetaLoop) : MetaLoop ⊕ Option Bytes :=
  if s.escaped = 0 then .inr (some s.mem)
  else if s.p = 0 ∨ s.t = 0 then .inr none
  else
    match s.mem[s.p - 1]? with
    | none => .inr none
    | some c =>
      match poke s.mem (s.t - 1) c with
      | none => .inr none
      | some mem =>
        if imeta c then
          match poke mem (s.t - 1) (c ^^^ 32) with
          | none => .inr none
          | some mem =>
            if s.t = 1 then .inr none
            else
              match poke mem (s.t - 2) 0x83 with
              | none => .inr none
              | some mem =>
                .inl { mem := mem, p := s.p - 1, t := s.t - 2, escaped := s.escaped - 1 }
        else .inl { s with mem := mem, p := s.p - 1, t := s.t - 1 }

def strlen (buf : Bytes) : Option Nat :=
  if 0 ∈ buf then some (buf.takeWhile (· ≠ 0)).length else none

def escapes (x : Bytes) : Nat := x.countP imeta

/-- Where the string is metafied; `fresh` is what was in the memory that is taken for it. -/
def destination (heap : MetaHeap) (buf fresh : Bytes) (len : Nat) : Bytes :=
  match heap with
  | .noalloc => buf
  | _ => buf.take len ++ fresh.drop len

def metaStart (mem : Bytes) (len escaped : Nat) : MetaLoop :=
  { mem := mem, p := len, t := len + escaped, escaped := escaped }

def stringLength (buf : Bytes) : Option Nat → Option Nat
  | some len => some len
  | none => strlen buf

def metafyBuf (buf : Bytes) (len : Option Nat) (heap : MetaHeap) (fresh : Bytes) : Option Bytes :=
  match stringLength buf len with
  | none => none
  | some len =>
    let escaped := escapes (buf.take len)
    if escaped ≠ 0 ∨ heap = .dup ∨ heap = .heapdup then
      match run metaStep (len + 1) (metaStart (destination heap buf fresh len) len escaped) with
      | some (some mem) => poke mem (len + escaped) 0
      | _ => none
    else poke buf len 0

structure UnmetaLoop where
  mem : Bytes
  p : Nat
  t : Nat
  deriving DecidableEq, Repr

def unmetaStep (s : UnmetaLoop) : UnmetaLoop ⊕ Option (Bytes × Nat) :=
  match s.mem[s.p]? with
  | none => .inr none
  | some c =>
    match poke s.mem s.t c with
    | none => .inr none
    | some mem =>
      if c = 0 then .inr (some (mem, s.t))
      else if c = 0x83 then
        match mem[s.p + 1]? with
        | none => .inr none
        | some d =>
          if d = 0 then .inl { mem := mem, p := s.p + 1, t := s.t + 1 }
          else
            match poke mem s.t (d ^^^ 32) with
            | none => .inr none
            | some mem => .inl { mem := mem, p := s.p + 2, t := s.t + 1 }
      else .inl { mem := mem, p := s.p + 1, t := s.t + 1 }

def unmetafyBuf (mem : Bytes) : Option (Bytes × Nat) :=
  let p := (mem.takeWhile fun c => c ≠ 0 ∧ c ≠ 0x83).length
  (run unmetaStep (mem.length + 1) { mem := mem, p := p, t := p }).join

def unmetaLoop : Bytes → Bytes
  | [] => []
  | c :: s =>
    match s with
    | [] => [c]
    | d :: s' => if c = 0x83 then (d ^^^ 32) :: unmetaLoop s' else c :: unmetaLoop (d :: s')

/-- `unmeta`, of a string and without the `NUL` at its end. -/
def unmeta (fileName : Bytes) : Bytes := if 0x83 ∈ fileName then unmetaLoop fileName else fileName

def metalenLoop : Nat → Bytes → Nat → Option Nat
  | 0, _, mlen => some mlen
  | _ + 1, [], _ => none
  | len + 1, c :: s, mlen =>
    if c = 0x83 then metalenLoop len s.tail (mlen + 1) else metalenLoop len s mlen

def metalen (s : Bytes) (len : Nat) : Option Nat := metalenLoop len s len

theorem poke_append (pre post : Bytes) (y c : UInt8) :
    poke (pre ++ y :: post) pre.length c = some (pre ++ c :: post) := by
  unfold poke
  rw [if_pos (by rw [List.length_append, List.length_cons]; omega),
    List.set_append_right _ _ (Nat.le_refl _), Nat.sub_self]
  rfl

theorem peek_append (pre post : Bytes) (y : UInt8) : (pre ++ y :: post)[pre.length]? = some y := by
  rw [List.getElem?_append_right (Nat.le_refl _), Nat.sub_self]
  rfl

theorem metafy_cons (c : UInt8) (x : Bytes) :
    metafy (c :: x) = (if imeta c then [0x83, c ^^^ 32] else [c]) ++ metafy x := List.flatMap_cons

theorem flip_flip (c : UInt8) : c ^^^ 32 ^^^ 32 = c := by
  rw [UInt8.xor_assoc, UInt8.xor_self, UInt8.xor_zero]

theorem imeta_iff {c : UInt8} : imeta c = true ↔ c = 0 ∨ 0x83 ≤ c ∧ c ≤ 0xa2 := by
  simp [imeta]

theorem flip_table : ∀ n < 256, n = 0 ∨ 0x83 ≤ n ∧ n ≤ 0xa2 →
    n ^^^ 32 = if n < 0xa0 then n + 32 else n - 32 := by decide +kernel

theorem imeta_toNat {c : UInt8} : imeta c = true ↔ c.toNat = 0 ∨ 0x83 ≤ c.toNat ∧ c.toNat ≤ 0xa2 := by
  rw [imeta_iff, ← UInt8.toNat_inj, UInt8.le_iff_toNat_le, UInt8.le_iff_toNat_le]
  rfl

theorem flip_toNat {c : UInt8} (h : imeta c = true) :
    (c ^^^ 32).toNat = if c.toNat < 0xa0 then c.toNat + 32 else c.toNat - 32 := by
  rw [UInt8.toNat_xor]
  exact flip_table c.toNat c.toNat_lt (imeta_toNat.mp h)

theorem flip_ne_meta {c : UInt8} (h : imeta c = true) : c ^^^ 32 ≠ 0x83 := by
  rw [Ne, ← UInt8.toNat_inj, flip_toNat h]
  have hc := imeta_toNat.mp h
  show ¬ _ = 131
  split <;> omega

theorem flip_cases {c : UInt8} (h : imeta c = true) :
    (c.toNat < 0xa0 ∧ (c ^^^ 32).toNat = c.toNat + 32) ∨
      (0xa0 ≤ c.toNat ∧ (c ^^^ 32).toNat = c.toNat - 32) := by
  rw [flip_toNat h]
  by_cases hc : c.toNat < 0xa0
  · exact Or.inl ⟨hc, if_pos hc⟩
  · exact Or.inr ⟨by omega, if_neg hc⟩

theorem metafy_append (x y : Bytes) : metafy (x ++ y) = metafy x ++ metafy y := List.flatMap_append

theorem metafy_of_escapes {x : Bytes} (h : escapes x = 0) : metafy x = x := by
  induction x with
  | nil => rfl
  | cons c x ih =>
    have hc : ¬ imeta c = true := by
      have hnone := List.countP_eq_zero.mp h c List.mem_cons_self
      exact hnone
    have hx : escapes x = 0 := by
      refine List.countP_eq_zero.mpr fun d hd => ?_
      exact List.countP_eq_zero.mp h d (List.mem_cons_of_mem c hd)
    rw [metafy_cons, if_neg hc, ih hx]
    rfl

/-! ## The expansion -/

/-- `a` is not read yet and as it was, and what was read is metafied behind it and a gap. -/
def Expanding (x after : Bytes) (s : MetaLoop) : Prop :=
  ∃ a gap b, x = a ++ b ∧ s.mem = a ++ gap ++ (metafy b ++ after) ∧ gap.length = escapes a ∧
    s.p = a.length ∧ s.t = a.length + escapes a ∧ s.escaped = escapes a

theorem metaStep_expanding {x after : Bytes} {s : MetaLoop} (h : Expanding x after s) :
    metaStep s = .inr (some (metafy x ++ after)) ∨
      ∃ s', metaStep s = .inl s' ∧ Expanding x after s' ∧ s'.p < s.p := by
  obtain ⟨a, gap, b, rfl, hmem, hgap, hp, ht, hesc⟩ := h
  unfold metaStep
  by_cases hzero : escapes a = 0
  · left
    rw [hzero] at hgap
    rw [if_pos (hesc.trans hzero), hmem, List.length_eq_zero_iff.mp hgap, List.append_nil,
      metafy_append, metafy_of_escapes hzero, List.append_assoc]
  · right
    rw [if_neg fun h => hzero (hesc.symm.trans h)]
    rcases List.eq_nil_or_concat' a with rfl | ⟨a', c, rfl⟩
    · exact absurd rfl hzero
    rcases List.eq_nil_or_concat' gap with rfl | ⟨g, y, rfl⟩
    · exact absurd hgap.symm hzero
    rw [List.length_append, List.length_singleton] at hgap hp ht
    rw [if_neg (by omega)]
    have hread : s.mem[s.p - 1]? = some c := by
      rw [hmem, show s.p - 1 = a'.length by omega]
      simp only [List.append_assoc, List.singleton_append]
      exact peek_append a' _ c
    have hwrite {d : UInt8} (z : UInt8) (hz : s.t - 1 = (a' ++ c :: g).length) :
        poke ((a' ++ c :: g) ++ z :: (metafy b ++ after)) (s.t - 1) d =
          some ((a' ++ c :: g) ++ d :: (metafy b ++ after)) := by
      rw [hz]
      exact poke_append _ _ z d
    have ht' : s.t - 1 = (a' ++ c :: g).length := by
      rw [List.length_append, List.length_cons]
      omega
    have hmem' : s.mem = (a' ++ c :: g) ++ y :: (metafy b ++ after) := by
      rw [hmem]
      simp only [List.append_assoc, List.cons_append, List.nil_append]
    have hcount : escapes (a' ++ [c]) = escapes a' + if imeta c then 1 else 0 := by
      unfold escapes
      rw [List.countP_append, List.countP_singleton]
    rw [hread]
    dsimp only
    rw [hmem', hwrite y ht']
    dsimp only
    by_cases hc : imeta c = true
    · rw [if_pos hc, hwrite c ht']
      dsimp only
      rw [if_pos hc] at hcount
      rw [if_neg (by omega)]
      obtain ⟨g', z, hg⟩ : ∃ g' z, c :: g = g' ++ [z] := by
        rcases List.eq_nil_or_concat' (c :: g) with h | ⟨g', z, h⟩
        · exact nomatch h
        · exact ⟨g', z, h⟩
      have hlen : g'.length = g.length := by
        have hlen := congrArg List.length hg
        simpa using hlen.symm
      have hsplit : (a' ++ c :: g) ++ (c ^^^ 32) :: (metafy b ++ after) =
          (a' ++ g') ++ z :: (c ^^^ 32) :: (metafy b ++ after) := by
        rw [hg]
        simp only [List.append_assoc, List.singleton_append]
      have ht2 : s.t - 2 = (a' ++ g').length := by
        rw [List.length_append]
        omega
      rw [hsplit, ht2, poke_append]
      refine ⟨_, rfl, ⟨a', g', c :: b, ?_, ?_, ?_, ?_, ?_, ?_⟩, ?_⟩
      · simp only [List.append_assoc, List.singleton_append]
      · dsimp only
        rw [metafy_cons, if_pos hc]
        simp only [List.cons_append, List.nil_append]
      · omega
      · show s.p - 1 = _
        omega
      · show (a' ++ g').length = _
        omega
      · show s.escaped - 1 = _
        omega
      · show s.p - 1 < s.p
        omega
    · rw [if_neg hc]
      rw [if_neg hc] at hcount
      refine ⟨_, rfl, ⟨a', c :: g, c :: b, ?_, ?_, ?_, ?_, ?_, ?_⟩, ?_⟩
      · simp only [List.append_assoc, List.singleton_append]
      · dsimp only
        rw [metafy_cons, if_neg hc]
        simp only [List.cons_append, List.nil_append]
      · rw [List.length_cons]
        omega
      · show s.p - 1 = _
        omega
      · show s.t - 1 = _
        omega
      · show s.escaped = _
        omega
      · show s.p - 1 < s.p
        omega

theorem expanding_reaches {x after : Bytes} {s s' : MetaLoop} (h : Expanding x after s)
    (hreach : Reaches metaStep s s') : Expanding x after s' := by
  refine hreach.invariant h fun {t t'} _ ht hstep => ?_
  rcases metaStep_expanding ht with hstop | ⟨t'', hnext, ht'', -⟩
  · exact nomatch hstop.symm.trans hstep
  · cases hnext.symm.trans hstep
    exact ht''

theorem run_expanding {x after : Bytes} {s : MetaLoop} {n : Nat} (h : Expanding x after s)
    (hn : s.p < n) : run metaStep n s = some (some (metafy x ++ after)) := by
  induction n generalizing s with
  | zero => exact absurd hn (Nat.not_lt_zero _)
  | succ n ih =>
    unfold run
    rcases metaStep_expanding h with hstop | ⟨s', hnext, h', hlt⟩
    · rw [hstop]
    · rw [hnext]
      exact ih h' (by omega)

theorem length_metafy (x : Bytes) : (metafy x).length = x.length + escapes x := by
  induction x with
  | nil => rfl
  | cons c x ih =>
    have hcount : escapes (c :: x) = escapes x + if imeta c then 1 else 0 := List.countP_cons
    rw [metafy_cons, List.length_append, ih, hcount, List.length_cons]
    split <;> simp only [List.length_cons, List.length_nil] <;> omega

/-- `len` is the length of `x`, or -1 where `NUL` ends it. -/
def GivenLen (x more : Bytes) : Option Nat → Prop
  | some len => len = x.length
  | none => 0 ∉ x ∧ more.head? = some 0

def Room (heap : MetaHeap) (x more fresh : Bytes) : Prop :=
  (metafy x).length <
    (if escapes x ≠ 0 ∨ heap = .dup ∨ heap = .heapdup then
      destination heap (x ++ more) fresh x.length else x ++ more).length

theorem strlen_append {x more : Bytes} (hx : 0 ∉ x) (hmore : more.head? = some 0) :
    strlen (x ++ more) = some x.length := by
  obtain ⟨rest, rfl⟩ := List.head?_eq_some_iff.mp hmore
  unfold strlen
  rw [if_pos (List.mem_append_right x List.mem_cons_self), List.takeWhile_append_of_pos ?_]
  · rw [List.takeWhile_cons_of_neg (by decide), List.append_nil]
  · exact fun c hc => decide_eq_true fun h => hx (h ▸ hc)

theorem stringLength_eq {x more : Bytes} {len : Option Nat} (h : GivenLen x more len) :
    stringLength (x ++ more) len = some x.length := by
  cases len with
  | none => exact strlen_append h.1 h.2
  | some len => exact congrArg some h

theorem destination_append (heap : MetaHeap) (x more fresh : Bytes) :
    ∃ more', destination heap (x ++ more) fresh x.length = x ++ more' := by
  cases heap with
  | noalloc => exact ⟨more, rfl⟩
  | _ => exact ⟨_, congrArg (· ++ _) List.take_left⟩

theorem expanding_metaStart {x gap after : Bytes} (hgap : gap.length = escapes x) :
    Expanding x after (metaStart (x ++ (gap ++ after)) x.length (escapes x)) :=
  ⟨x, gap, [], (List.append_nil x).symm, (List.append_assoc x gap after).symm, hgap, rfl, rfl, rfl⟩

theorem metafyBuf_eq {x more fresh : Bytes} {len : Option Nat} {heap : MetaHeap}
    (hlen : GivenLen x more len) (hroom : Room heap x more fresh) :
    ∃ after, metafyBuf (x ++ more) len heap fresh = some (metafy x ++ 0 :: after) := by
  unfold metafyBuf
  rw [stringLength_eq hlen]
  dsimp only
  rw [List.take_left]
  unfold Room at hroom
  by_cases hexp : escapes x ≠ 0 ∨ heap = .dup ∨ heap = .heapdup
  · rw [if_pos hexp] at hroom ⊢
    obtain ⟨more', hdest⟩ := destination_append heap x more fresh
    rw [hdest, length_metafy, List.length_append] at hroom
    obtain ⟨gap, rest, hmore, hgap⟩ : ∃ gap rest, more' = gap ++ rest ∧ gap.length = escapes x :=
      ⟨more'.take (escapes x), more'.drop (escapes x), (List.take_append_drop _ _).symm,
        List.length_take_of_le (by omega)⟩
    subst hmore
    cases rest with
    | nil =>
      rw [List.append_nil] at hroom
      omega
    | cons y after =>
      have hrun : run metaStep (x.length + 1) _ = _ :=
        run_expanding (@expanding_metaStart x gap (y :: after) hgap) (Nat.lt_succ_self _)
      rw [hdest, hrun]
      dsimp only
      rw [← length_metafy, poke_append]
      exact ⟨after, rfl⟩
  · rw [if_neg hexp] at hroom ⊢
    rw [not_or, not_not] at hexp
    rw [metafy_of_escapes hexp.1] at hroom ⊢
    cases more with
    | nil =>
      rw [List.append_nil] at hroom
      exact absurd hroom (Nat.lt_irrefl _)
    | cons y after => exact ⟨after, poke_append x after y 0⟩

theorem reaches_unread {x more fresh : Bytes} {heap : MetaHeap} {s : MetaLoop}
    (hroom : Room heap x more fresh)
    (h : Reaches metaStep
      (metaStart (destination heap (x ++ more) fresh x.length) x.length (escapes x)) s) :
    s.mem.take s.p = x.take s.p ∧ s.t = s.p + s.escaped := by
  obtain ⟨more', hdest⟩ := destination_append heap x more fresh
  have hle : escapes x ≤ more'.length := by
    by_cases hzero : escapes x = 0
    · omega
    · unfold Room at hroom
      rw [if_pos (Or.inl hzero), hdest, length_metafy, List.length_append] at hroom
      omega
  have hstart : Expanding x (more'.drop (escapes x))
      (metaStart (destination heap (x ++ more) fresh x.length) x.length (escapes x)) := by
    have hstart := @expanding_metaStart x (more'.take (escapes x)) (more'.drop (escapes x))
      (List.length_take_of_le hle)
    rwa [List.take_append_drop, ← hdest] at hstart
  obtain ⟨a, gap, b, rfl, hmem, -, hp, ht, hesc⟩ := expanding_reaches hstart h
  refine ⟨?_, by omega⟩
  rw [hmem, hp, List.append_assoc, List.take_left, List.take_left]

theorem imeta_flip {c : UInt8} (h : imeta c = true) : imeta (c ^^^ 32) = false := by
  refine Bool.eq_false_iff.mpr fun hflip => ?_
  have hc := imeta_toNat.mp h
  have hd := imeta_toNat.mp hflip
  have hcases := flip_cases h
  omega

theorem metafy_escaped {x pre post : Bytes} {c : UInt8} (h : metafy x = pre ++ c :: post)
    (hc : imeta c = true) : c = 0x83 ∧ ∃ d rest, post = (d ^^^ 32) :: rest ∧ imeta d = true ∧
      imeta (d ^^^ 32) = false := by
  induction x generalizing pre with
  | nil => exact absurd h.symm (List.append_ne_nil_of_right_ne_nil _ (List.cons_ne_nil _ _))
  | cons d x ih =>
    rw [metafy_cons] at h
    by_cases hd : imeta d = true
    · rw [if_pos hd] at h
      match pre, h with
      | [], h =>
        obtain ⟨rfl, rfl⟩ := List.cons.inj h
        exact ⟨rfl, d, _, rfl, hd, imeta_flip hd⟩
      | [_], h =>
        obtain ⟨-, h⟩ := List.cons.inj h
        obtain ⟨rfl, -⟩ := List.cons.inj h
        exact absurd hc (by rw [imeta_flip hd]; exact Bool.noConfusion)
      | _ :: _ :: pre, h => exact ih (List.cons.inj (List.cons.inj h).2).2
    · rw [if_neg hd] at h
      match pre, h with
      | [], h =>
        obtain ⟨rfl, -⟩ := List.cons.inj h
        exact absurd hc hd
      | _ :: pre, h => exact ih (List.cons.inj h).2

theorem metafy_noNull (x : Bytes) : 0 ∉ metafy x := fun h => by
  obtain ⟨pre, post, heq⟩ := List.append_of_mem h
  exact absurd (metafy_escaped heq rfl).1 (by decide)

theorem unmetafy_cons {c : UInt8} (h : c ≠ 0x83) (s : Bytes) : unmetafy (c :: s) = c :: unmetafy s := by
  cases s with
  | nil => rfl
  | cons d s => exact if_neg h

theorem unmetafy_metafy (x : Bytes) : unmetafy (metafy x) = x := by
  induction x with
  | nil => rfl
  | cons c x ih =>
    rw [metafy_cons]
    by_cases hc : imeta c = true
    · rw [if_pos hc]
      show (c ^^^ 32 ^^^ 32) :: unmetafy (metafy x) = c :: x
      rw [flip_flip, ih]
    · have hne : c ≠ 0x83 := fun h => hc (h ▸ rfl)
      rw [if_neg hc, List.singleton_append, unmetafy_cons hne, ih]

/-! ## The way back -/

/-- `out` is what the string starts with, unmetafied, and `rest` is not read yet. -/
def Shortening (s0 after : Bytes) (s : UnmetaLoop) : Prop :=
  ∃ out junk rest, s.mem = out ++ junk ++ rest ++ 0 :: after ∧ s.t = out.length ∧
    s.p = (out ++ junk).length ∧ out ++ unmetafy rest = s0 ∧ 0 ∉ rest

theorem exists_cons_eq_concat (junk : Bytes) (c : UInt8) : ∃ y ys, junk ++ [c] = y :: ys := by
  cases junk with
  | nil => exact ⟨c, [], rfl⟩
  | cons y ys => exact ⟨y, ys ++ [c], rfl⟩

theorem unmetaStep_shortening {s0 after : Bytes} {s : UnmetaLoop} (h : Shortening s0 after s) :
    (∃ after', unmetaStep s = .inr (some (s0 ++ 0 :: after', s0.length))) ∨
      ∃ s', unmetaStep s = .inl s' ∧ Shortening s0 after s' ∧ s'.mem.length = s.mem.length ∧
        s.p < s'.p := by
  obtain ⟨out, junk, rest, hmem, ht, hp, hout, hrest⟩ := h
  unfold unmetaStep
  cases rest with
  | nil =>
    left
    rw [show unmetafy [] = [] from rfl, List.append_nil] at hout
    subst hout
    obtain ⟨y, ys, hy⟩ := exists_cons_eq_concat junk 0
    have hmem' : s.mem = out ++ y :: (ys ++ after) := by
      rw [hmem, List.append_nil, List.append_assoc, ← List.cons_append, ← hy, List.append_assoc]
      rfl
    have hread : s.mem[s.p]? = some 0 := by
      rw [hmem, hp, List.append_nil]
      exact peek_append _ _ _
    rw [hread]
    dsimp only
    rw [hmem', ht, poke_append]
    exact ⟨ys ++ after, rfl⟩
  | cons c rest =>
    right
    obtain ⟨hc, hrest⟩ := not_or.mp fun h => hrest (List.mem_cons.mpr h)
    obtain ⟨y, ys, hy⟩ := exists_cons_eq_concat junk c
    have hmem' : s.mem = out ++ y :: (ys ++ (rest ++ 0 :: after)) := by
      rw [hmem, ← List.cons_append, ← hy]
      simp only [List.append_assoc, List.cons_append, List.nil_append]
    have hlen : junk.length = ys.length := by
      have hlen := congrArg List.length hy
      simpa using hlen
    have hread : s.mem[s.p]? = some c := by
      rw [hmem, hp]
      simp only [List.append_assoc, List.cons_append]
      rw [← List.append_assoc]
      exact peek_append _ _ _
    rw [List.length_append] at hp
    have hlength {z z' : UInt8} (us vs : Bytes) :
        (us ++ z :: vs).length = (us ++ z' :: vs).length := by
      rw [List.length_append, List.length_append, List.length_cons, List.length_cons]
    rw [hread]
    dsimp only
    rw [hmem', ht, poke_append]
    dsimp only
    rw [if_neg (Ne.symm hc)]
    -- a character is copied
    have hcopy (hnext : unmetafy (c :: rest) = c :: unmetafy rest) :
        Shortening s0 after
          { mem := out ++ c :: (ys ++ (rest ++ 0 :: after)), p := s.p + 1, t := out.length + 1 } := by
      refine ⟨out ++ [c], ys, rest, ?_, ?_, ?_, ?_, hrest⟩
      · simp only [List.append_assoc, List.cons_append, List.nil_append]
      · rw [List.length_append, List.length_singleton]
      · simp only [List.length_append, List.length_cons, List.length_nil]
        omega
      · rw [← hout, hnext, List.append_assoc]
        rfl
    by_cases hmeta : c = 0x83
    · rw [if_pos hmeta]
      have hread' : (out ++ c :: (ys ++ (rest ++ 0 :: after)))[s.p + 1]? =
          (rest ++ 0 :: after)[0]? := by
        rw [show out ++ c :: (ys ++ (rest ++ 0 :: after)) =
          (out ++ c :: ys) ++ (rest ++ 0 :: after) by
            simp only [List.append_assoc, List.cons_append]]
        rw [List.getElem?_append_right (by rw [List.length_append, List.length_cons]; omega)]
        congr 1
        rw [List.length_append, List.length_cons]
        omega
      rw [hread']
      cases rest with
      | nil => exact ⟨_, rfl, hcopy rfl, hlength _ _, Nat.lt_succ_self _⟩
      | cons d rest =>
        obtain ⟨hd, hrest⟩ := not_or.mp fun h => hrest (List.mem_cons.mpr h)
        dsimp only [List.cons_append, List.getElem?_cons_zero]
        rw [if_neg (Ne.symm hd), poke_append]
        refine ⟨_, rfl, ⟨out ++ [d ^^^ 32], ys ++ [d], rest, ?_, ?_, ?_, ?_, hrest⟩, hlength _ _, ?_⟩
        · simp only [List.append_assoc, List.cons_append, List.nil_append]
        · show out.length + 1 = _
          rw [List.length_append, List.length_singleton]
        · simp only [List.length_append, List.length_cons, List.length_nil]
          omega
        · rw [← hout, hmeta, List.append_assoc]
          rfl
        · show s.p < s.p + 2
          omega
    · rw [if_neg hmeta]
      exact ⟨_, rfl, hcopy (unmetafy_cons hmeta rest), hlength _ _, Nat.lt_succ_self _⟩

theorem run_shortening {s0 after : Bytes} {s : UnmetaLoop} {n : Nat} (h : Shortening s0 after s)
    (hn : s.mem.length < s.p + n) :
    ∃ after', run unmetaStep n s = some (some (s0 ++ 0 :: after', s0.length)) := by
  induction n generalizing s with
  | zero =>
    obtain ⟨out, junk, rest, hmem, -, hp, -, -⟩ := h
    rw [hmem, hp, List.append_assoc, List.length_append] at hn
    omega
  | succ n ih =>
    unfold run
    rcases unmetaStep_shortening h with ⟨after', hstop⟩ | ⟨s', hnext, h', hlen, hlt⟩
    · rw [hstop]
      exact ⟨after', rfl⟩
    · rw [hnext]
      exact ih h' (by omega)

theorem unmetafy_append {p : Bytes} (hp : 0x83 ∉ p) (s : Bytes) :
    unmetafy (p ++ s) = p ++ unmetafy s := by
  induction p with
  | nil => rfl
  | cons c p ih =>
    obtain ⟨hc, hp⟩ := not_or.mp fun h => hp (List.mem_cons.mpr h)
    rw [List.cons_append, unmetafy_cons (Ne.symm hc), ih hp, List.cons_append]

theorem unmetafyBuf_eq {s : Bytes} (hs : 0 ∉ s) (after : Bytes) : ∃ after',
    unmetafyBuf (s ++ 0 :: after) = some (unmetafy s ++ 0 :: after', (unmetafy s).length) := by
  have hsplit := List.takeWhile_append_dropWhile (p := fun c => c ≠ 0x83) (l := s)
  have hhead := List.head?_dropWhile_not (fun c => decide (c ≠ 0x83)) s
  have hclean : 0x83 ∉ s.takeWhile fun c => c ≠ 0x83 := fun h => by
    have hne := List.mem_takeWhile_imp h
    exact absurd hne (by decide)
  generalize (s.takeWhile fun c => c ≠ 0x83) = p at hsplit hclean
  generalize (s.dropWhile fun c => c ≠ 0x83) = rest at hsplit hhead
  subst hsplit
  have hskip : ((p ++ rest) ++ 0 :: after).takeWhile (fun c => c ≠ 0 ∧ c ≠ 0x83) = p := by
    rw [List.append_assoc, List.takeWhile_append_of_pos ?_]
    · cases rest with
      | nil => rw [List.nil_append, List.takeWhile_cons_of_neg (by decide), List.append_nil]
      | cons c rest =>
        have hc : c = 0x83 := by simpa using hhead
        subst hc
        rw [List.cons_append, List.takeWhile_cons_of_neg (by decide), List.append_nil]
    · intro c hc
      exact decide_eq_true ⟨fun h => hs (List.mem_append_left _ (h ▸ hc)), fun h => hclean (h ▸ hc)⟩
  have hstart : Shortening (unmetafy (p ++ rest)) after
      { mem := (p ++ rest) ++ 0 :: after, p := p.length, t := p.length } := by
    refine ⟨p, [], rest, ?_, rfl, ?_, (unmetafy_append hclean rest).symm,
      fun h => hs (List.mem_append_right p h)⟩
    · rw [List.append_nil]
    · rw [List.append_nil]
  unfold unmetafyBuf
  dsimp only
  rw [hskip]
  obtain ⟨after', hrun⟩ := run_shortening (n := ((p ++ rest) ++ 0 :: after).length + 1) hstart (by
    show ((p ++ rest) ++ 0 :: after).length < p.length + (((p ++ rest) ++ 0 :: after).length + 1)
    omega)
  rw [hrun]
  exact ⟨after', rfl⟩

theorem unmetaLoop_eq (s : Bytes) : unmetaLoop s = unmetafy s := by
  fun_induction unmetafy s with
  | case1 => rfl
  | case2 c => rfl
  | case3 d s ih => rw [unmetaLoop, if_pos rfl, ih]
  | case4 c d s hc ih => rw [unmetaLoop, if_neg hc, ih]

theorem unmeta_eq (s : Bytes) : unmeta s = unmetafy s := by
  unfold unmeta
  by_cases h : 0x83 ∈ s
  · rw [if_pos h, unmetaLoop_eq]
  · have happ := unmetafy_append h []
    rw [List.append_nil, show unmetafy [] = [] from rfl, List.append_nil] at happ
    rw [if_neg h, happ]

theorem metalenLoop_eq (x rest : Bytes) (k mlen : Nat) (hk : k ≤ x.length) :
    metalenLoop k (metafy x ++ rest) mlen = some (mlen + escapes (x.take k)) := by
  induction k generalizing x mlen with
  | zero => rfl
  | succ k ih =>
    cases x with
    | nil => exact absurd hk (Nat.not_succ_le_zero _)
    | cons c x =>
      have hk' : k ≤ x.length := Nat.le_of_succ_le_succ hk
      have hcount : escapes (c :: x.take k) = escapes (x.take k) + if imeta c then 1 else 0 :=
        List.countP_cons
      rw [metafy_cons, List.take_succ_cons, hcount]
      by_cases hc : imeta c = true
      · rw [if_pos hc, if_pos hc]
        show metalenLoop k (metafy x ++ rest) (mlen + 1) = _
        rw [ih x (mlen + 1) hk']
        congr 1
        omega
      · have hne : c ≠ 0x83 := fun h => hc (h ▸ rfl)
        rw [if_neg hc, if_neg hc, List.singleton_append, List.cons_append, metalenLoop, if_neg hne]
        exact ih x mlen hk'

theorem metalen_eq (x rest : Bytes) {k : Nat} (hk : k ≤ x.length) :
    metalen (metafy x ++ rest) k = some (metafy (x.take k)).length := by
  rw [metalen, metalenLoop_eq x rest k k hk, length_metafy, List.length_take_of_le hk]

/-- A string of any bytes is kept in another one without `NUL`, and comes back from it. -/
theorem metafy_faithful {x more fresh : Bytes} {len : Option Nat} {heap : MetaHeap}
    (hlen : GivenLen x more len) (hroom : Room heap x more fresh) :
    (∃ after, metafyBuf (x ++ more) len heap fresh = some (metafy x ++ 0 :: after)) ∧
      (∀ s, Reaches metaStep
          (metaStart (destination heap (x ++ more) fresh x.length) x.length (escapes x)) s →
        s.mem.take s.p = x.take s.p ∧ s.t = s.p + s.escaped) ∧
      0 ∉ metafy x ∧
      (∀ pre c post, metafy x = pre ++ c :: post → imeta c = true → c = 0x83 ∧
        ∃ d rest, post = (d ^^^ 32) :: rest ∧ imeta d = true ∧ imeta (d ^^^ 32) = false) ∧
      (∀ after, ∃ after', unmetafyBuf (metafy x ++ 0 :: after) =
        some (x ++ 0 :: after', x.length)) ∧
      (∀ s, 0 ∉ s → ∀ after, ∃ after', unmetafyBuf (s ++ 0 :: after) =
        some (unmeta s ++ 0 :: after', (unmeta s).length)) ∧
      ∀ k ≤ x.length, ∀ after,
        metalen (metafy x ++ 0 :: after) k = some (metafy (x.take k)).length := by
  refine ⟨metafyBuf_eq hlen hroom, fun s hs => reaches_unread hroom hs, metafy_noNull x,
    fun pre c post h hc => metafy_escaped h hc, fun after => ?_, fun s hs after => ?_,
    fun k hk after => metalen_eq x _ hk⟩
  · have hback := unmetafyBuf_eq (metafy_noNull x) after
    rwa [unmetafy_metafy] at hback
  · rw [unmeta_eq]
    exact unmetafyBuf_eq hs after

/-- Three bytes with `NUL` and `Meta` among them, in place. -/
theorem metafy_faithful_noalloc :
    (∃ after, metafyBuf ([0, 97, 0x83] ++ [1, 2, 3, 4]) (some 3) .noalloc [] =
      some (metafy [0, 97, 0x83] ++ 0 :: after)) :=
  (@metafy_faithful [0, 97, 0x83] [1, 2, 3, 4] [] (some 3) .noalloc rfl
    (show 5 < 7 by decide)).1

end NextBSD.Zsh
