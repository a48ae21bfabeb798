import Mathlib.Data.List.TakeWhile
import NextBSD.Iolog.Json

/-!
# env_pattern.c: patterns for the environment

A pointer into a string is the rest of the string from there on; at its end stands the NUL.  A
pointer is never moved past it: that would be `none`.
-/

namespace NextBSD.Sudoers.EnvPattern

open Iolog (Bytes)

def star : UInt8 := 42

def equals : UInt8 := 61

def deref : Bytes → UInt8
  | [] => 0
  | c :: _ => c

def advance : Bytes → Option Bytes
  | [] => none
  | _ :: s => some s

def strncmpEq : Nat → Bytes → Bytes → Bool
  | 0, _, _ => true
  | _ + 1, [], [] => true
  | n + 1, a :: p, b :: s => a = b && strncmpEq n p s
  | _ + 1, _, _ => false

def scanTo (c : UInt8) (sawSep : Bool) (sepPos : Nat) : Nat → Bytes → Nat × Bytes
  | len, [] => (len, [])
  | len, v :: rest =>
    if (sawSep ∨ len ≠ sepPos) ∧ v ≠ 0 ∧ v ≠ c then scanTo c sawSep sepPos (len + 1) rest
    else (len, v :: rest)

/-- The loop: `rest` is what follows `var + len`.  The answer is the match and the length. -/
def matchLoop (sepPos : Nat) (cp : Bytes) (sawSep : Bool) (len : Nat) (rest : Bytes) :
    Option (Bool × Nat) :=
  match cp with
  | [] => some (len = sepPos || deref rest = 0, len)
  | c :: cp =>
    if c = star then
      match _h : cp.dropWhile (· = star) with
      | [] => some (true, len)
      | d :: cp' =>
        let sawSep := sawSep || d = equals
        let (len, rest) := scanTo d sawSep sepPos len rest
        if deref rest ≠ d then some (false, len)
        else do
          let rest ← advance rest
          matchLoop sepPos cp' sawSep (len + 1) rest
    else if deref rest ≠ c then some (false, len)
    else do
      let rest ← advance rest
      matchLoop sepPos cp sawSep (len + 1) rest
termination_by cp.length
decreasing_by
  · have hshort := (List.dropWhile_sublist (· = star) (l := cp)).length_le
    rw [_h, List.length_cons] at hshort
    rw [List.length_cons]
    omega
  · exact Nat.lt_succ_self _

/-- The answer, and `*full_match` where it is set. -/
structure Answer where
  found : Bool
  fullMatch : Option Bool
  deriving DecidableEq, Repr

def matchesEnvPattern (pattern var : Bytes) : Option Answer := do
  let sepPos := (var.takeWhile (· ≠ equals)).length
  let len := (pattern.takeWhile (· ≠ star)).length
  let isWild := decide (len < pattern.length)
  let (found, len) ←
    if strncmpEq len pattern var then
      if len ≤ var.length then
        if isWild then matchLoop sepPos (pattern.drop len) false len (var.drop len)
        else some (len = sepPos || deref (var.drop len) = 0, len)
      else none
    else some (false, len)
  pure { found := found, fullMatch := if found then some (decide (sepPos + 1 < len)) else none }

/-! ## Globs

Every star stands for a text.  Before the first `=` of the pattern it is a text of the name, of
which `name` bytes are left. -/

/-- The pattern is the string.  `covers` limits the bytes of a star, given what follows it. -/
def Glob (covers : Bytes → UInt8 → Prop) : Bool → Bytes → Nat → Bytes → Prop
  | _, [], _, s => s = []
  | sawSep, c :: p, name, s =>
    if c = star then
      ∃ text rest, s = text ++ rest ∧ (sawSep = true ∨ text.length ≤ name) ∧
        (∀ b ∈ text, covers p b) ∧ Glob covers sawSep p (name - text.length) rest
    else ∃ rest, s = c :: rest ∧ Glob covers (sawSep || c = equals) p (name - 1) rest

def name (var : Bytes) : Bytes := var.takeWhile (· ≠ equals)

def GlobMatches (covers : Bytes → UInt8 → Prop) (pattern var : Bytes) : Prop :=
  Glob covers false pattern (name var).length var ∨
    Glob covers false pattern (name var).length (name var)

def Matches : Bytes → Bytes → Prop := GlobMatches fun _ _ => True

def StopsFirst (p : Bytes) (b : UInt8) : Prop := (p.dropWhile (· = star)).head? ≠ some b

/-- No star stands for a text with the character that follows it in the pattern. -/
def FirstMatches : Bytes → Bytes → Prop := GlobMatches StopsFirst

theorem glob_mono {covers covers' : Bytes → UInt8 → Prop} (h : ∀ p b, covers p b → covers' p b)
    {sawSep : Bool} {p s : Bytes} {k : Nat} (hglob : Glob covers sawSep p k s) :
    Glob covers' sawSep p k s := by
  induction p generalizing sawSep k s with
  | nil => exact hglob
  | cons c p ih =>
    unfold Glob at hglob ⊢
    split_ifs at hglob ⊢ with hstar
    · obtain ⟨text, rest, hs, hname, hcovers, hrest⟩ := hglob
      exact ⟨text, rest, hs, hname, fun b hb => h p b (hcovers b hb), ih hrest⟩
    · obtain ⟨rest, hs, hrest⟩ := hglob
      exact ⟨rest, hs, ih hrest⟩

theorem glob_char {covers : Bytes → UInt8 → Prop} {sawSep : Bool} {c : UInt8} {p s : Bytes} {k : Nat}
    (hc : c ≠ star) : Glob covers sawSep (c :: p) k s ↔
      ∃ rest, s = c :: rest ∧ Glob covers (sawSep || c = equals) p (k - 1) rest := by
  rw [Glob, if_neg hc]

theorem glob_star {covers : Bytes → UInt8 → Prop} {sawSep : Bool} {p s : Bytes} {k : Nat} :
    Glob covers sawSep (star :: p) k s ↔
      ∃ text rest, s = text ++ rest ∧ (sawSep = true ∨ text.length ≤ k) ∧
        (∀ b ∈ text, covers p b) ∧ Glob covers sawSep p (k - text.length) rest := by
  rw [Glob, if_pos rfl]

theorem glob_star_star {sawSep : Bool} {p s : Bytes} {k : Nat} :
    Glob StopsFirst sawSep (star :: star :: p) k s ↔ Glob StopsFirst sawSep (star :: p) k s := by
  have hcovers : ∀ b, StopsFirst (star :: p) b ↔ StopsFirst p b := by
    intro b
    unfold StopsFirst
    rw [List.dropWhile_cons_of_pos (by decide)]
  constructor
  · intro h
    obtain ⟨text, rest, rfl, hname, htext, h⟩ := glob_star.mp h
    obtain ⟨text', rest', rfl, hname', htext', h⟩ := glob_star.mp h
    refine glob_star.mpr ⟨text ++ text', rest', (List.append_assoc _ _ _).symm, ?_, ?_, ?_⟩
    · rw [List.length_append]
      rcases hname with hsep | hname
      · exact Or.inl hsep
      · rcases hname' with hsep | hname'
        · exact Or.inl hsep
        · exact Or.inr (by omega)
    · intro b hb
      rcases List.mem_append.mp hb with hb | hb
      · exact (hcovers b).mp (htext b hb)
      · exact htext' b hb
    · rw [List.length_append, ← Nat.sub_sub]
      exact h
  · intro h
    obtain ⟨text, rest, rfl, hname, htext, h⟩ := glob_star.mp h
    exact glob_star.mpr ⟨text, rest, rfl, hname, fun b hb => (hcovers b).mpr (htext b hb),
      glob_star.mpr ⟨[], rest, rfl, Or.inr (Nat.zero_le _), fun b hb => absurd hb List.not_mem_nil,
        h⟩⟩

theorem glob_dropWhile {sawSep : Bool} {p s : Bytes} {k : Nat} :
    Glob StopsFirst sawSep (star :: p) k s ↔
      Glob StopsFirst sawSep (star :: p.dropWhile (· = star)) k s := by
  induction p with
  | nil => rfl
  | cons c p ih =>
    by_cases hstar : c = star
    · rw [hstar, glob_star_star, List.dropWhile_cons_of_pos (by decide)]
      exact ih
    · rw [List.dropWhile_cons_of_neg (by simpa using hstar)]

theorem glob_star_end {sawSep : Bool} {s : Bytes} {k : Nat} :
    Glob StopsFirst sawSep [star] k s ↔ sawSep = true ∨ s.length ≤ k := by
  rw [glob_star]
  constructor
  · rintro ⟨text, rest, rfl, hname, -, rfl⟩
    rw [List.append_nil]
    exact hname
  · intro hname
    exact ⟨s, [], (List.append_nil s).symm, hname, fun b _ h => Option.some_ne_none _ h.symm, rfl⟩

theorem glob_star_char {sawSep : Bool} {d : UInt8} {p s : Bytes} {k : Nat} (hd : d ≠ star) :
    Glob StopsFirst sawSep (star :: d :: p) k s ↔
      ∃ rest, s.dropWhile (· ≠ d) = d :: rest ∧
        (sawSep = true ∨ (s.takeWhile (· ≠ d)).length ≤ k) ∧
        Glob StopsFirst (sawSep || d = equals) p (k - (s.takeWhile (· ≠ d)).length - 1) rest := by
  have hstops : ∀ b, StopsFirst (d :: p) b ↔ b ≠ d := by
    intro b
    unfold StopsFirst
    rw [List.dropWhile_cons_of_neg (by simpa using hd), List.head?_cons]
    exact ⟨fun h heq => h (congrArg some heq.symm), fun h heq => h (Option.some.inj heq).symm⟩
  rw [glob_star]
  constructor
  · rintro ⟨text, rest, rfl, hname, htext, h⟩
    obtain ⟨rest', rfl, h'⟩ := (glob_char hd).mp h
    have hpass : ∀ b ∈ text, decide (b ≠ d) = true :=
      fun b hb => decide_eq_true ((hstops b).mp (htext b hb))
    rw [List.takeWhile_append_of_pos hpass, List.dropWhile_append_of_pos hpass,
      List.takeWhile_cons_of_neg (by simp), List.dropWhile_cons_of_neg (by simp), List.append_nil]
    exact ⟨rest', rfl, hname, h'⟩
  · rintro ⟨rest, hrest, hname, h⟩
    refine ⟨s.takeWhile (· ≠ d), d :: rest, ?_, hname, ?_, (glob_char hd).mpr ⟨rest, rfl, h⟩⟩
    · rw [← hrest, List.takeWhile_append_dropWhile]
    · intro b hb
      have hpass : decide (b ≠ d) = true := List.mem_takeWhile_imp (p := fun b => decide (b ≠ d)) hb
      exact (hstops b).mpr (of_decide_eq_true hpass)

/-! ## The loop -/

theorem scanTo_eq {c : UInt8} {sawSep : Bool} {sepPos len : Nat} {rest : Bytes} (hnul : 0 ∉ rest)
    (h : sawSep = true ∨ sepPos < len) : scanTo c sawSep sepPos len rest =
      (len + (rest.takeWhile (· ≠ c)).length, rest.dropWhile (· ≠ c)) := by
  induction rest generalizing len with
  | nil => rfl
  | cons v rest ih =>
    have hv : v ≠ 0 := fun heq => hnul (heq ▸ List.mem_cons_self)
    have hguard : sawSep = true ∨ len ≠ sepPos := h.imp_right fun hlt => by omega
    have hnext : sawSep = true ∨ sepPos < len + 1 := h.imp_right fun hlt => by omega
    unfold scanTo
    by_cases hc : v = c
    · rw [if_neg fun hno => hno.2.2 hc, List.takeWhile_cons_of_neg (by simpa using hc),
        List.dropWhile_cons_of_neg (by simpa using hc)]
      rfl
    · rw [if_pos ⟨hguard, hv, hc⟩, List.takeWhile_cons_of_pos (by simpa using hc),
        List.dropWhile_cons_of_pos (by simpa using hc),
        ih (fun hmem => hnul (List.mem_cons_of_mem v hmem)) hnext, List.length_cons]
      congr 1
      omega

theorem scanTo_name {c : UInt8} {sepPos len : Nat} {front back : Bytes} (hnul : 0 ∉ front)
    (h : len + front.length = sepPos) : scanTo c false sepPos len (front ++ back) =
      (len + (front.takeWhile (· ≠ c)).length, front.dropWhile (· ≠ c) ++ back) := by
  induction front generalizing len with
  | nil =>
    rw [List.length_nil, Nat.add_zero] at h
    cases back with
    | nil => rfl
    | cons v back =>
      unfold scanTo
      rw [List.nil_append]
      dsimp only
      rw [if_neg fun hno => hno.1.elim Bool.false_ne_true fun hne => hne h]
      rfl
  | cons v front ih =>
    rw [List.length_cons] at h
    have hv : v ≠ 0 := fun heq => hnul (heq ▸ List.mem_cons_self)
    rw [List.cons_append]
    unfold scanTo
    by_cases hc : v = c
    · rw [if_neg fun hno => hno.2.2 hc, List.takeWhile_cons_of_neg (by simpa using hc),
        List.dropWhile_cons_of_neg (by simpa using hc)]
      rfl
    · rw [if_pos ⟨Or.inr (by omega), hv, hc⟩, List.takeWhile_cons_of_pos (by simpa using hc),
        List.dropWhile_cons_of_pos (by simpa using hc),
        ih (fun hmem => hnul (List.mem_cons_of_mem v hmem)) (by omega), List.length_cons]
      congr 1
      omega

theorem matchLoop_nil (sepPos : Nat) (sawSep : Bool) (len : Nat) (rest : Bytes) :
    matchLoop sepPos [] sawSep len rest = some (len = sepPos || deref rest = 0, len) := by
  rw [matchLoop]

theorem matchLoop_char {c : UInt8} (hc : c ≠ star) (sepPos : Nat) (cp : Bytes) (sawSep : Bool)
    (len : Nat) (rest : Bytes) : matchLoop sepPos (c :: cp) sawSep len rest =
      if deref rest ≠ c then some (false, len)
      else (advance rest).bind fun rest => matchLoop sepPos cp sawSep (len + 1) rest := by
  rw [matchLoop, if_neg hc]
  rfl

theorem matchLoop_star_end {cp : Bytes} (h : cp.dropWhile (· = star) = []) (sepPos : Nat)
    (sawSep : Bool) (len : Nat) (rest : Bytes) :
    matchLoop sepPos (star :: cp) sawSep len rest = some (true, len) := by
  rw [matchLoop, if_pos rfl]
  split
  · rfl
  · next heq => exact absurd (h.symm.trans heq).symm (List.cons_ne_nil _ _)

theorem matchLoop_star {cp cp' : Bytes} {d : UInt8} (h : cp.dropWhile (· = star) = d :: cp')
    (sepPos : Nat) (sawSep : Bool) (len : Nat) (rest : Bytes) :
    matchLoop sepPos (star :: cp) sawSep len rest =
      if deref (scanTo d (sawSep || d = equals) sepPos len rest).2 ≠ d then
        some (false, (scanTo d (sawSep || d = equals) sepPos len rest).1)
      else (advance (scanTo d (sawSep || d = equals) sepPos len rest).2).bind fun rest' =>
        matchLoop sepPos cp' (sawSep || d = equals)
          ((scanTo d (sawSep || d = equals) sepPos len rest).1 + 1) rest' := by
  rw [matchLoop, if_pos rfl]
  split
  · next heq => exact absurd (h.symm.trans heq) (List.cons_ne_nil _ _)
  · next d' cp'' heq =>
    obtain ⟨rfl, rfl⟩ := List.cons.inj (h.symm.trans heq)
    rfl

theorem deref_eq {rest : Bytes} {c : UInt8} (hc : c ≠ 0) (h : deref rest = c) :
    ∃ rest', rest = c :: rest' := by
  cases rest with
  | nil => exact absurd h.symm hc
  | cons v rest =>
    obtain rfl : v = c := h
    exact ⟨rest, rfl⟩

theorem after_stars {cp cp' : Bytes} {d : UInt8} (h : cp.dropWhile (· = star) = d :: cp')
    (hnul : 0 ∉ cp) : d ≠ star ∧ d ≠ 0 ∧ 0 ∉ cp' ∧ cp'.length < cp.length := by
  have hsub := List.dropWhile_sublist (· = star) (l := cp)
  have hnot := List.head?_dropWhile_not (· = star) cp
  rw [h] at hsub hnot
  refine ⟨of_decide_eq_false hnot, ?_, fun hmem => hnul (hsub.subset (List.mem_cons_of_mem d hmem)),
    hsub.length_le⟩
  rintro rfl
  exact hnul (hsub.subset List.mem_cons_self)

theorem matchLoop_behind {sepPos : Nat} {cp : Bytes} {sawSep : Bool} {len : Nat} {rest : Bytes}
    (hcp : 0 ∉ cp) (hrest : 0 ∉ rest) (hlen : sepPos < len) (k : Nat) :
    ∃ b len', matchLoop sepPos cp sawSep len rest = some (b, len') ∧
      (b = true ↔ Glob StopsFirst true cp k rest) := by
  induction hn : cp.length using Nat.strong_induction_on generalizing cp sawSep len rest k with
  | _ n ih =>
    cases cp with
    | nil =>
      refine ⟨_, _, matchLoop_nil sepPos sawSep len rest, ?_⟩
      show (len = sepPos || deref rest = 0) = true ↔ rest = []
      rw [decide_eq_false (by omega : ¬ len = sepPos), Bool.false_or, decide_eq_true_eq]
      cases rest with
      | nil => exact iff_of_true rfl rfl
      | cons v rest =>
        exact iff_of_false (fun hv => hrest (hv ▸ List.mem_cons_self)) (List.cons_ne_nil _ _)
    | cons c cp =>
      have hc : c ≠ 0 := fun heq => hcp (heq ▸ List.mem_cons_self)
      have htail : 0 ∉ cp := fun hmem => hcp (List.mem_cons_of_mem c hmem)
      rw [List.length_cons] at hn
      by_cases hstar : c = star
      · subst hstar
        rw [glob_dropWhile]
        cases hdrop : cp.dropWhile (· = star) with
        | nil =>
          refine ⟨_, _, matchLoop_star_end hdrop sepPos sawSep len rest, ?_⟩
          rw [glob_star_end]
          exact iff_of_true rfl (Or.inl rfl)
        | cons d cp' =>
          obtain ⟨hd, hzero, hcp', hlength⟩ := after_stars hdrop htail
          rw [matchLoop_star hdrop, scanTo_eq hrest (Or.inr hlen), glob_star_char hd]
          by_cases hfound : ∃ rest', rest.dropWhile (· ≠ d) = d :: rest'
          · obtain ⟨rest', hfound⟩ := hfound
            have hrest' : 0 ∉ rest' := fun hmem => hrest
              ((List.dropWhile_sublist _).subset (hfound ▸ List.mem_cons_of_mem d hmem))
            rw [hfound, if_neg (fun hno => hno rfl)]
            obtain ⟨b, len', hloop, hiff⟩ := ih cp'.length (by omega) hcp' hrest'
              (by omega : sepPos < len + (rest.takeWhile (· ≠ d)).length + 1)
              (k - (rest.takeWhile (· ≠ d)).length - 1) rfl
            refine ⟨b, len', hloop, hiff.trans ⟨fun h => ⟨rest', rfl, Or.inl rfl, h⟩, ?_⟩⟩
            rintro ⟨rest'', heq, -, h⟩
            obtain rfl : rest' = rest'' := (List.cons.inj heq).2
            exact h
          · have hmiss : deref (rest.dropWhile (· ≠ d)) ≠ d := fun heq => hfound (deref_eq hzero heq)
            rw [if_pos hmiss]
            exact ⟨_, _, rfl, iff_of_false Bool.false_ne_true fun ⟨rest', h, _⟩ => hfound ⟨rest', h⟩⟩
      · rw [matchLoop_char hstar, glob_char hstar]
        by_cases hfound : ∃ rest', rest = c :: rest'
        · obtain ⟨rest', rfl⟩ := hfound
          have hrest' : 0 ∉ rest' := fun hmem => hrest (List.mem_cons_of_mem c hmem)
          rw [if_neg (fun hno => hno rfl)]
          obtain ⟨b, len', hloop, hiff⟩ := ih cp.length (by omega) htail hrest'
            (by omega : sepPos < len + 1) (k - 1) rfl
          refine ⟨b, len', hloop, hiff.trans ⟨fun h => ⟨rest', rfl, h⟩, ?_⟩⟩
          rintro ⟨rest'', heq, h⟩
          obtain rfl : rest' = rest'' := (List.cons.inj heq).2
          exact h
        · have hmiss : deref rest ≠ c := fun heq => hfound (deref_eq hc heq)
          rw [if_pos hmiss]
          exact ⟨_, _, rfl, iff_of_false Bool.false_ne_true fun ⟨rest', h, _⟩ => hfound ⟨rest', h⟩⟩

theorem append_found {d : UInt8} {front front' : Bytes} (back : Bytes)
    (h : front.dropWhile (· ≠ d) = d :: front') :
    (front ++ back).takeWhile (· ≠ d) = front.takeWhile (· ≠ d) ∧
      (front ++ back).dropWhile (· ≠ d) = d :: (front' ++ back) ∧
      (front.takeWhile (· ≠ d)).length + (front'.length + 1) = front.length := by
  have hpass : ∀ b ∈ front.takeWhile (· ≠ d), decide (b ≠ d) = true :=
    fun b hb => List.mem_takeWhile_imp (p := fun b => decide (b ≠ d)) hb
  have hfront : front = front.takeWhile (· ≠ d) ++ d :: front' := by
    rw [← h, List.takeWhile_append_dropWhile]
  have hlength := congrArg List.length hfront
  rw [List.length_append, List.length_cons] at hlength
  refine ⟨?_, ?_, hlength.symm⟩
  · conv_lhs => rw [hfront]
    rw [List.append_assoc, List.takeWhile_append_of_pos hpass, List.cons_append,
      List.takeWhile_cons_of_neg (by simp), List.append_nil]
  · conv_lhs => rw [hfront]
    rw [List.append_assoc, List.dropWhile_append_of_pos hpass, List.cons_append,
      List.dropWhile_cons_of_neg (by simp)]

theorem append_missing {d : UInt8} {front : Bytes} (back : Bytes)
    (h : front.dropWhile (· ≠ d) = []) :
    (front ++ back).takeWhile (· ≠ d) = front ++ back.takeWhile (· ≠ d) ∧
      (front ++ back).dropWhile (· ≠ d) = back.dropWhile (· ≠ d) := by
  have hpass : ∀ b ∈ front, decide (b ≠ d) = true := List.dropWhile_eq_nil_iff.mp h
  exact ⟨List.takeWhile_append_of_pos hpass, List.dropWhile_append_of_pos hpass⟩

/-- What the loop keeps within the name: `front` is what is left of it. -/
structure InName (sepPos len : Nat) (front back : Bytes) : Prop where
  position : len + front.length = sepPos
  name : equals ∉ front
  value : back = [] ∨ ∃ value, back = equals :: value
  noNul : 0 ∉ front ++ back

theorem InName.drop {sepPos len : Nat} {front front' back : Bytes} {n : Nat}
    (h : InName sepPos len front back) (hsub : front' <:+ front)
    (hlength : n + front'.length = front.length) : InName sepPos (len + n) front' back := by
  have hposition := h.position
  refine ⟨by omega, fun hmem => h.name (hsub.subset hmem), h.value, fun hmem => h.noNul ?_⟩
  rcases List.mem_append.mp hmem with hmem | hmem
  · exact List.mem_append_left _ (hsub.subset hmem)
  · exact List.mem_append_right _ hmem

/-- What the loop answers within the name: a star stands for a text of the name. -/
def LoopMatches (sepPos : Nat) (cp : Bytes) (len : Nat) (front back : Bytes) : Prop :=
  ∃ b len', matchLoop sepPos cp false len (front ++ back) = some (b, len') ∧
    (b = true ↔ Glob StopsFirst false cp front.length (front ++ back) ∨
      Glob StopsFirst false cp front.length front)

theorem loopMatches_nil {sepPos len : Nat} {front back : Bytes} (h : InName sepPos len front back) :
    LoopMatches sepPos [] len front back := by
  have hposition := h.position
  refine ⟨_, _, matchLoop_nil sepPos false len _, ?_⟩
  show (len = sepPos || deref (front ++ back) = 0) = true ↔ front ++ back = [] ∨ front = []
  rw [Bool.or_eq_true, decide_eq_true_eq, decide_eq_true_eq]
  constructor
  · rintro (hsep | hend)
    · exact Or.inr (List.length_eq_zero_iff.mp (by omega))
    · cases hwhole : front ++ back with
      | nil => exact Or.inl rfl
      | cons v rest =>
        rw [hwhole] at hend
        exact absurd (hwhole ▸ hend ▸ List.mem_cons_self) h.noNul
  · rintro (hwhole | rfl)
    · rw [hwhole]
      exact Or.inr rfl
    · exact Or.inl (by simpa using hposition)

theorem loopMatches_separator {sepPos len : Nat} {cp cp' front back : Bytes} (hcp : 0 ∉ cp)
    (h : InName sepPos len front back) (hdrop : cp.dropWhile (· = star) = equals :: cp') :
    LoopMatches sepPos (star :: cp) len front back := by
  obtain ⟨hd, hzero, hcp', -⟩ := after_stars hdrop hcp
  have hposition := h.position
  have hmissing : front.dropWhile (· ≠ equals) = [] :=
    List.dropWhile_eq_nil_iff.mpr fun b hb => by
      have hb' : b ≠ equals := fun heq => h.name (heq ▸ hb)
      simpa using hb'
  obtain ⟨htake, hrest⟩ := append_missing back hmissing
  unfold LoopMatches
  rw [glob_dropWhile (s := front ++ back), glob_dropWhile (s := front), hdrop,
    matchLoop_star hdrop, glob_star_char hd, glob_star_char hd,
    scanTo_eq h.noNul (Or.inl (by rfl)), htake, hrest, hmissing]
  rcases h.value with rfl | ⟨value, rfl⟩
  · refine ⟨_, _, if_pos (Ne.symm hzero), iff_of_false Bool.false_ne_true ?_⟩
    rintro (⟨rest, hno, -⟩ | ⟨rest, hno, -⟩)
    · exact absurd hno.symm (List.cons_ne_nil _ _)
    · exact absurd hno.symm (List.cons_ne_nil _ _)
  · have hvalue : 0 ∉ value := fun hmem =>
      h.noNul (List.mem_append_right _ (List.mem_cons_of_mem _ hmem))
    rw [List.takeWhile_cons_of_neg (by simp), List.dropWhile_cons_of_neg (by simp),
      List.append_nil, if_neg (fun hno => hno rfl)]
    obtain ⟨b, len', hloop, hiff⟩ := @matchLoop_behind sepPos cp' true _ _ hcp' hvalue
      (by omega : sepPos < len + front.length + 1) (front.length - front.length - 1)
    refine ⟨b, len', hloop, hiff.trans ⟨fun hglob => Or.inl ⟨value, rfl,
      Or.inr (Nat.le_refl _), hglob⟩, ?_⟩⟩
    rintro (⟨rest, hcons, -, hglob⟩ | ⟨rest, hno, -⟩)
    · obtain rfl : value = rest := (List.cons.inj hcons).2
      exact hglob
    · exact absurd hno.symm (List.cons_ne_nil _ _)

theorem loopMatches_star {sepPos len : Nat} {cp cp' front back : Bytes} {d : UInt8} (hcp : 0 ∉ cp)
    (h : InName sepPos len front back) (hdrop : cp.dropWhile (· = star) = d :: cp')
    (hsep : d ≠ equals) (ih : ∀ {len front}, InName sepPos len front back →
      LoopMatches sepPos cp' len front back) :
    LoopMatches sepPos (star :: cp) len front back := by
  obtain ⟨hd, hzero, hcp', -⟩ := after_stars hdrop hcp
  have hsaw : (false || decide (d = equals)) = false := by simpa using hsep
  have hfrontNul : 0 ∉ front := fun hmem => h.noNul (List.mem_append_left _ hmem)
  unfold LoopMatches
  rw [glob_dropWhile (s := front ++ back), glob_dropWhile (s := front), hdrop,
    matchLoop_star hdrop, glob_star_char hd, glob_star_char hd, hsaw,
    scanTo_name hfrontNul h.position]
  by_cases hfound : ∃ front', front.dropWhile (· ≠ d) = d :: front'
  · obtain ⟨front', hfound⟩ := hfound
    obtain ⟨htake, hrest, hlength⟩ := append_found back hfound
    have hsub : front' <:+ front :=
      (List.suffix_cons d front').trans (hfound ▸ List.dropWhile_suffix _)
    have hnext := h.drop (n := (front.takeWhile (· ≠ d)).length + 1) hsub (by omega)
    have hleft : front.length - (front.takeWhile (· ≠ d)).length - 1 = front'.length := by omega
    rw [hfound, htake, hrest, hleft, List.cons_append, if_neg (fun hno => hno rfl)]
    obtain ⟨b, len', hloop, hiff⟩ := ih hnext
    refine ⟨b, len', hloop, hiff.trans ⟨?_, ?_⟩⟩
    · rintro (hglob | hglob)
      · exact Or.inl ⟨_, rfl, Or.inr (by omega), hglob⟩
      · exact Or.inr ⟨_, rfl, Or.inr (by omega), hglob⟩
    · rintro (⟨rest, hcons, -, hglob⟩ | ⟨rest, hcons, -, hglob⟩)
      · rw [← (List.cons.inj hcons).2] at hglob
        exact Or.inl hglob
      · rw [← (List.cons.inj hcons).2] at hglob
        exact Or.inr hglob
  · have hmissing : front.dropWhile (· ≠ d) = [] := by
      cases hcase : front.dropWhile (· ≠ d) with
      | nil => rfl
      | cons v rest =>
        have hnot := List.head?_dropWhile_not (· ≠ d) front
        rw [hcase] at hnot
        have hv : v = d := not_not.mp (of_decide_eq_false hnot)
        exact absurd ⟨rest, hv ▸ hcase⟩ hfound
    obtain ⟨htake, hrest⟩ := append_missing back hmissing
    have hmiss : deref back ≠ d := by
      rcases h.value with rfl | ⟨value, rfl⟩
      · exact Ne.symm hzero
      · exact Ne.symm hsep
    rw [hmissing, List.nil_append, if_pos hmiss, htake, hrest]
    refine ⟨_, _, rfl, iff_of_false Bool.false_ne_true ?_⟩
    rintro (⟨rest, hcons, hname, -⟩ | ⟨rest, hno, -⟩)
    · rcases h.value with rfl | ⟨value, rfl⟩
      · exact absurd hcons.symm (List.cons_ne_nil _ _)
      · -- the text would take the separator in
        rw [List.takeWhile_cons_of_pos (by simpa using Ne.symm hsep)] at hname
        rcases hname with hno | hname
        · exact Bool.false_ne_true hno
        · rw [List.length_append, List.length_cons] at hname
          omega
    · exact absurd hno.symm (List.cons_ne_nil _ _)

theorem loopMatches_char {sepPos len : Nat} {cp front back : Bytes} {c : UInt8} (hstar : c ≠ star)
    (hc : c ≠ 0) (hcp : 0 ∉ cp) (h : InName sepPos len front back)
    (ih : ∀ {len front}, InName sepPos len front back → LoopMatches sepPos cp len front back) :
    LoopMatches sepPos (c :: cp) len front back := by
  have hposition := h.position
  unfold LoopMatches
  rw [matchLoop_char hstar, glob_char hstar, glob_char hstar]
  by_cases hfound : ∃ rest, front ++ back = c :: rest
  · obtain ⟨rest, hfound⟩ := hfound
    rw [hfound, if_neg (fun hno => hno rfl)]
    cases front with
    | nil =>
      -- the separator itself
      rcases h.value with rfl | ⟨value, rfl⟩
      · exact absurd hfound.symm (List.cons_ne_nil _ _)
      · obtain ⟨rfl, rfl⟩ := List.cons.inj hfound
        have hvalue : 0 ∉ value := fun hmem => h.noNul (List.mem_cons_of_mem _ hmem)
        have hbehind : sepPos < len + 1 := by
          rw [List.length_nil] at hposition
          omega
        obtain ⟨b, len', hloop, hiff⟩ := @matchLoop_behind sepPos cp false _ _ hcp hvalue hbehind
          (([] : Bytes).length - 1)
        refine ⟨b, len', hloop, hiff.trans ⟨fun hglob => Or.inl ⟨value, rfl, hglob⟩, ?_⟩⟩
        rintro (⟨rest, hcons, hglob⟩ | ⟨rest, hno, -⟩)
        · obtain rfl : value = rest := (List.cons.inj hcons).2
          exact hglob
        · exact absurd hno.symm (List.cons_ne_nil _ _)
    | cons v front =>
      obtain ⟨rfl, rfl⟩ := List.cons.inj hfound
      have hsep : v ≠ equals := fun heq => h.name (heq ▸ List.mem_cons_self)
      have hsaw : (false || decide (v = equals)) = false := by simpa using hsep
      have hnext := h.drop (n := 1) (List.suffix_cons v front) (Nat.add_comm 1 _)
      obtain ⟨b, len', hloop, hiff⟩ := ih hnext
      rw [hsaw]
      refine ⟨b, len', hloop, hiff.trans ⟨?_, ?_⟩⟩
      · rintro (hglob | hglob)
        · exact Or.inl ⟨_, rfl, hglob⟩
        · exact Or.inr ⟨_, rfl, hglob⟩
      · rintro (⟨rest, hcons, hglob⟩ | ⟨rest, hcons, hglob⟩)
        · rw [← (List.cons.inj hcons).2] at hglob
          exact Or.inl hglob
        · rw [← (List.cons.inj hcons).2] at hglob
          exact Or.inr hglob
  · have hmiss : deref (front ++ back) ≠ c := fun heq => hfound (deref_eq hc heq)
    rw [if_pos hmiss]
    refine ⟨_, _, rfl, iff_of_false Bool.false_ne_true ?_⟩
    rintro (⟨rest, hcons, -⟩ | ⟨rest, hcons, -⟩)
    · exact hfound ⟨rest, hcons⟩
    · exact hfound ⟨rest ++ back, by rw [hcons, List.cons_append]⟩

theorem matchLoop_name {sepPos : Nat} {cp : Bytes} {len : Nat} {front back : Bytes}
    (hcp : 0 ∉ cp) (h : InName sepPos len front back) : LoopMatches sepPos cp len front back := by
  induction hn : cp.length using Nat.strong_induction_on generalizing cp len front with
  | _ n ih =>
    cases cp with
    | nil => exact loopMatches_nil h
    | cons c cp =>
      have hc : c ≠ 0 := fun heq => hcp (heq ▸ List.mem_cons_self)
      have htail : 0 ∉ cp := fun hmem => hcp (List.mem_cons_of_mem c hmem)
      rw [List.length_cons] at hn
      by_cases hstar : c = star
      · subst hstar
        cases hdrop : cp.dropWhile (· = star) with
        | nil =>
          refine ⟨_, _, matchLoop_star_end hdrop sepPos false len _, ?_⟩
          rw [glob_dropWhile (s := front ++ back), glob_dropWhile (s := front), hdrop,
            glob_star_end, glob_star_end]
          exact iff_of_true rfl (Or.inr (Or.inr (Nat.le_refl _)))
        | cons d cp' =>
          obtain ⟨-, -, hcp', hshort⟩ := after_stars hdrop htail
          by_cases hsep : d = equals
          · subst hsep
            exact loopMatches_separator htail h hdrop
          · exact loopMatches_star htail h hdrop hsep fun h => ih cp'.length (by omega) hcp' h rfl
      · exact loopMatches_char hstar hc htail h fun h => ih cp.length (by omega) htail h rfl

/-! ## The whole pattern

The comparison up to the first star does what the loop would do with these characters. -/

theorem matchLoop_literal {sepPos : Nat} {literal tail : Bytes} {sawSep : Bool} {len : Nat}
    {rest : Bytes} (hstar : star ∉ literal) (hnul : 0 ∉ literal) :
    (strncmpEq literal.length (literal ++ tail) rest = true ∧ literal.length ≤ rest.length ∧
      matchLoop sepPos (literal ++ tail) sawSep len rest =
        matchLoop sepPos tail sawSep (len + literal.length) (rest.drop literal.length)) ∨
    (strncmpEq literal.length (literal ++ tail) rest = false ∧
      ∃ len', matchLoop sepPos (literal ++ tail) sawSep len rest = some (false, len')) := by
  induction literal generalizing len rest with
  | nil => exact Or.inl ⟨by cases tail <;> cases rest <;> rfl, Nat.zero_le _, rfl⟩
  | cons c literal ih =>
    have hc : c ≠ star := fun heq => hstar (heq ▸ List.mem_cons_self)
    have hzero : c ≠ 0 := fun heq => hnul (heq ▸ List.mem_cons_self)
    rw [List.cons_append, matchLoop_char hc]
    cases rest with
    | nil => exact Or.inr ⟨rfl, len, if_pos (Ne.symm hzero)⟩
    | cons v rest =>
      by_cases hv : v = c
      · subst hv
        rw [if_neg (fun hno => hno rfl)]
        have hsame : strncmpEq (v :: literal).length (v :: (literal ++ tail)) (v :: rest) =
            strncmpEq literal.length (literal ++ tail) rest := by
          show (decide (v = v) && _) = _
          rw [decide_eq_true rfl, Bool.true_and]
        rw [hsame]
        rcases @ih (len + 1) rest (fun hmem => hstar (List.mem_cons_of_mem _ hmem))
          (fun hmem => hnul (List.mem_cons_of_mem _ hmem)) with ⟨heq, hle, hloop⟩ | ⟨hne, hloop⟩
        · refine Or.inl ⟨heq, Nat.succ_le_succ hle, hloop.trans ?_⟩
          rw [List.length_cons, List.drop_succ_cons, Nat.add_right_comm, Nat.add_assoc]
        · exact Or.inr ⟨hne, hloop⟩
      · refine Or.inr ⟨?_, len, if_pos hv⟩
        show (decide (c = v) && _) = false
        rw [decide_eq_false (Ne.symm hv), Bool.false_and]

theorem matchesEnvPattern_eq {pattern var : Bytes} (hpattern : 0 ∉ pattern) {b : Bool} {len : Nat}
    (hloop : matchLoop (name var).length pattern false 0 var = some (b, len)) :
    ∃ full, matchesEnvPattern pattern var = some { found := b, fullMatch := full } := by
  have hstar : star ∉ pattern.takeWhile (· ≠ star) := by
    intro hmem
    have hpass := List.mem_takeWhile_imp (p := fun c => decide (c ≠ star)) hmem
    exact of_decide_eq_true hpass rfl
  have hnul : 0 ∉ pattern.takeWhile (· ≠ star) :=
    fun hmem => hpattern ((List.takeWhile_sublist _).subset hmem)
  have hsplit : pattern.takeWhile (· ≠ star) ++ pattern.dropWhile (· ≠ star) = pattern :=
    List.takeWhile_append_dropWhile
  have hdrop : pattern.drop (pattern.takeWhile (· ≠ star)).length = pattern.dropWhile (· ≠ star) :=
    (congrArg (List.drop (pattern.takeWhile (· ≠ star)).length) hsplit.symm).trans List.drop_left
  have hliteral := @matchLoop_literal (name var).length _ (pattern.dropWhile (· ≠ star)) false 0 var
    hstar hnul
  rw [hsplit, Nat.zero_add, hloop] at hliteral
  unfold matchesEnvPattern
  dsimp only
  rcases hliteral with ⟨heq, hle, hsame⟩ | ⟨hne, len', hsame⟩
  · rw [heq, if_pos rfl, if_pos hle, hdrop]
    by_cases hwild : (pattern.takeWhile (· ≠ star)).length < pattern.length
    · rw [decide_eq_true hwild, if_pos rfl]
      change ∃ full, (matchLoop (name var).length _ _ _ _ >>= _) = _
      rw [← hsame]
      exact ⟨_, rfl⟩
    · have hend : pattern.dropWhile (· ≠ star) = [] := by
        have hlength := congrArg List.length hsplit
        rw [List.length_append] at hlength
        exact List.length_eq_zero_iff.mp (by omega)
      rw [hend, matchLoop_nil] at hsame
      obtain ⟨rfl, rfl⟩ := Prod.mk.inj (Option.some.inj hsame)
      rw [decide_eq_false hwild, if_neg Bool.false_ne_true]
      exact ⟨_, rfl⟩
  · obtain ⟨rfl, -⟩ := Prod.mk.inj (Option.some.inj hsame)
    rw [hne, if_neg Bool.false_ne_true]
    exact ⟨_, rfl⟩

theorem inName_start {var : Bytes} (hvar : 0 ∉ var) :
    InName (name var).length 0 (name var) (var.dropWhile (· ≠ equals)) := by
  have hsplit : name var ++ var.dropWhile (· ≠ equals) = var := List.takeWhile_append_dropWhile
  refine ⟨Nat.zero_add _, fun hmem => ?_, ?_, by rwa [hsplit]⟩
  · have hpass := List.mem_takeWhile_imp (p := fun c => decide (c ≠ equals)) hmem
    exact of_decide_eq_true hpass rfl
  · cases hvalue : var.dropWhile (· ≠ equals) with
    | nil => exact Or.inl rfl
    | cons c value =>
      have hnot := List.head?_dropWhile_not (· ≠ equals) var
      rw [hvalue] at hnot
      have hc : c = equals := not_not.mp (of_decide_eq_false hnot)
      exact Or.inr ⟨value, by rw [hc]⟩

theorem matchesEnvPattern_found {pattern var : Bytes} (hpattern : 0 ∉ pattern) (hvar : 0 ∉ var) :
    ∃ answer, matchesEnvPattern pattern var = some answer ∧
      (answer.found = true ↔ FirstMatches pattern var) := by
  obtain ⟨b, len, hloop, hiff⟩ := matchLoop_name hpattern (inName_start hvar)
  have hsplit : name var ++ var.dropWhile (· ≠ equals) = var := List.takeWhile_append_dropWhile
  rw [hsplit] at hloop hiff
  obtain ⟨full, hanswer⟩ := matchesEnvPattern_eq hpattern hloop
  exact ⟨_, hanswer, hiff⟩

/-- The call stays within both strings and tells whether the pattern matches. -/
def Exact (pattern var : Bytes) : Prop :=
  ∃ answer, matchesEnvPattern pattern var = some answer ∧
    (answer.found = true ↔ Matches pattern var)

theorem matches_of_first {pattern var : Bytes} (h : FirstMatches pattern var) :
    Matches pattern var :=
  h.imp (glob_mono fun _ _ _ => trivial) (glob_mono fun _ _ _ => trivial)

theorem matchesEnvPattern_iff {pattern var : Bytes} (hpattern : 0 ∉ pattern) (hvar : 0 ∉ var) :
    Exact pattern var ↔ (Matches pattern var → FirstMatches pattern var) := by
  obtain ⟨answer, hanswer, hfirst⟩ := matchesEnvPattern_found hpattern hvar
  constructor
  · rintro ⟨answer', hanswer', hiff⟩ hmatches
    obtain rfl := Option.some.inj (hanswer.symm.trans hanswer')
    exact hfirst.mp (hiff.mpr hmatches)
  · exact fun h => ⟨answer, hanswer, hfirst.trans ⟨matches_of_first, h⟩⟩

/-- The pattern `A*` and the string `A=1`. -/
theorem exact_trailing_star : Exact [65, 42] [65, 61, 49] := by
  refine (matchesEnvPattern_iff (by decide) (by decide)).mpr fun _ => Or.inr ?_
  show Glob StopsFirst false [65, star] 1 [65]
  rw [glob_char (by decide)]
  exact ⟨[], rfl, glob_star_end.mpr (Or.inr (Nat.zero_le _))⟩

/-- The pattern `*ab` is the name of `aab=`, but the star has stopped at the first `a`. -/
theorem not_exact_backtrack : ¬ Exact [42, 97, 98] [97, 97, 98, 61] := by
  rintro ⟨answer, hanswer, hiff⟩
  have hmatches : Matches [42, 97, 98] [97, 97, 98, 61] := by
    refine Or.inr (glob_star.mpr ⟨[97], [97, 98], rfl, Or.inr (by decide), fun _ _ => trivial, ?_⟩)
    exact (glob_char (by decide)).mpr ⟨[98], rfl, (glob_char (by decide)).mpr ⟨[], rfl, rfl⟩⟩
  have hloop : matchLoop (name [97, 97, 98, 61]).length [42, 97, 98] false 0 [97, 97, 98, 61] =
      some (false, 1) := by
    rw [show ([42, 97, 98] : Bytes) = star :: [97, 98] from rfl, matchLoop_star rfl]
    exact matchLoop_char (by decide) _ _ _ _ _
  obtain ⟨full, hfalse⟩ := matchesEnvPattern_eq (by decide) hloop
  obtain rfl := Option.some.inj (hfalse.symm.trans hanswer)
  exact Bool.false_ne_true (hiff.mpr hmatches)

end NextBSD.Sudoers.EnvPattern
