import NextBSD.Library.Edits
import NextBSD.Zsh.HistFile

/-!
# pattern.c: approximate matching

`(#aN)` in front of a literal: the literal is one `P_EXACTLY`, behind which there is `P_END`.  Bytes
are characters, and no flag but the number of errors is set.
-/

namespace NextBSD.Zsh.Pattern.Approx

open EditDistance

/-- The globals that the approximation code saves and restores.  `patinput` is what is left of the
test string, `exactpos` what is left of the literal. -/
structure ApproxState where
  patinput : Bytes
  errsfound : Nat
  exactpos : Option Bytes
  deriving DecidableEq, Repr

/-- What `patmatch` returns, and the state in which it does; nothing if it is still at work. -/
abbrev Result := Option (Bool × ApproxState)

/-- `exactpos = NULL; return 0`. -/
def giveUp (st : ApproxState) : Result := some (false, { st with exactpos := none })

/-- `if (patmatch(scan)) return 1`, and what comes then. -/
def Result.orElse (r : Result) (f : ApproxState → Result) : Result :=
  match r with
  | some (false, st) => f st
  | r => r

/-- The loop of `P_EXACTLY`: what is left of the literal and of the test string. -/
def exactLoop : Bytes → Bytes → Bytes × Bytes
  | chpa :: chrop, chin :: input =>
    if chin = chpa then exactLoop chrop input else (chpa :: chrop, chin :: input)
  | chrop, input => (chrop, input)

/-- The test for two characters that are swapped, and what is left of both behind them. -/
def swapped : Bytes → Bytes → Option (Bytes × Bytes)
  | cin0 :: cin1 :: input, cpa0 :: cpa1 :: exact =>
    if cin0 = cpa1 ∧ cin1 = cpa0 then some (input, exact) else none
  | _, _ => none

/-- The approximation code at a `P_EXACTLY`, once there is one more error. -/
def approximate (retry : ApproxState → Result) (savexact : Bytes) (save : ApproxState) : Result :=
  -- The exact match pattern is moved up last.
  let omitPattern (st : ApproxState) : Result := retry { st with exactpos := some savexact.tail }
  match save.patinput with
  | [] => omitPattern save
  | _ :: nextin =>
    (retry { save with patinput := nextin }).orElse fun st =>
    let st := { st with errsfound := save.errsfound, exactpos := some savexact }
    (match swapped save.patinput savexact with
      | some (input, exact) => retry { st with patinput := input, exactpos := some exact }
      | none => some (false, st)).orElse fun st =>
    (retry { st with
      patinput := nextin, errsfound := save.errsfound
      exactpos := some savexact.tail }).orElse fun st =>
    omitPattern { st with
      patinput := save.patinput, errsfound := save.errsfound, exactpos := some savexact }

inductive Scan where
  | exactly
  | atEnd
  deriving DecidableEq, Repr

/-- `patmatch`, where `maxerrs` is the low byte of `patglobflags`. -/
def patmatch (maxerrs : Nat) (literal : Bytes) : Nat → Scan → ApproxState → Result
  | 0, _, _ => none
  | fuel + 1, .exactly, st =>
    let r := exactLoop (st.exactpos.getD literal) st.patinput
    if r.1 = [] then
      patmatch maxerrs literal fuel .atEnd { st with patinput := r.2, exactpos := none }
    else
      let st := { st with patinput := r.2, exactpos := some r.1 }
      if st.errsfound < maxerrs then
        approximate (patmatch maxerrs literal fuel .exactly) r.1
          { st with errsfound := st.errsfound + 1 }
      else giveUp st
  | fuel + 1, .atEnd, st =>
    match st.patinput with
    | [] => some (true, st)
    | _ :: input =>
      if st.errsfound < maxerrs then
        patmatch maxerrs literal fuel .atEnd
          { st with patinput := input, errsfound := st.errsfound + 1 }
      else giveUp st

def pureMatch (pstr string : Bytes) : Bool :=
  decide (pstr.length ≤ string.length) && decide (string.take pstr.length = pstr) &&
    decide (string.length = pstr.length)

/-- The program for a literal behind `(#aN)`. -/
structure Prog where
  pures : Bool
  globflags : Nat
  literal : Bytes
  deriving DecidableEq, Repr

/-- What `patcompile` makes of `(#aN)` and a literal; nothing if the number is too large. -/
def patcompile (errs : Nat) (literal : Bytes) : Option Prog :=
  if 254 < errs then none
  else
    -- Without a literal there is only a `P_NOTHING`, and that is a pure string in any case.
    some { pures := decide (errs = 0 ∨ literal = []), globflags := errs, literal := literal }

def pattry (prog : Prog) (string : Bytes) (fuel : Nat) : Option Bool :=
  if prog.pures = true then some (pureMatch prog.literal string)
  else
    (patmatch prog.globflags prog.literal fuel .exactly
      { patinput := string, errsfound := 0, exactpos := none }).map Prod.fst

theorem exactLoop_stops (chrop input : Bytes) :
    (exactLoop chrop input).1 = [] ∨ (exactLoop chrop input).2 = [] ∨
      (exactLoop chrop input).1.head? ≠ (exactLoop chrop input).2.head? := by
  fun_induction exactLoop chrop input with
  | case1 chpa chrop input ih => exact ih
  | case2 chpa chrop chin input hne => exact Or.inr (Or.inr (by simpa using Ne.symm hne))
  | case3 chrop input hcons =>
    cases chrop with
    | nil => exact Or.inl rfl
    | cons chpa chrop =>
      cases input with
      | nil => exact Or.inr (Or.inl rfl)
      | cons chin input => exact absurd rfl (hcons chpa chrop chin input rfl)

theorem exactLoop_align (chrop input : Bytes) (n : Nat) :
    (∃ m ≤ n, Align (exactLoop chrop input).1 (exactLoop chrop input).2 m) ↔
      ∃ m ≤ n, Align chrop input m := by
  fun_induction exactLoop chrop input with
  | case1 chpa chrop input ih => rw [ih, exists_align_cons_cons_iff]
  | case2 => rfl
  | case3 => rfl

def Result.Answers (r : Result) (p : Prop) : Prop := ∃ b st, r = some (b, st) ∧ (b = true ↔ p)

theorem Result.Answers.orElse {r : Result} {f : ApproxState → Result} {p q : Prop}
    (hr : r.Answers p) (hf : ∀ st, (f st).Answers q) : (r.orElse f).Answers (p ∨ q) := by
  obtain ⟨b, st, rfl, hb⟩ := hr
  cases b with
  | true => exact ⟨true, st, rfl, by simp [hb.mp rfl]⟩
  | false =>
    have hp : ¬p := by simpa using hb
    obtain ⟨b, st', hf, hb'⟩ := hf st
    exact ⟨b, st', hf, by simp [hb', hp]⟩

theorem Result.Answers.of_iff {r : Result} {p q : Prop} (hr : r.Answers p) (h : p ↔ q) :
    r.Answers q := by
  obtain ⟨b, st, hr, hb⟩ := hr
  exact ⟨b, st, hr, hb.trans h⟩

theorem answers_false (st : ApproxState) {p : Prop} (hp : ¬p) :
    Result.Answers (some (false, st)) p :=
  ⟨false, st, rfl, by simp [hp]⟩

theorem approximate_answers {retry : ApproxState → Result} {n : Nat} {save : ApproxState}
    {c : UInt8} {exact : Bytes}
    (hretry : ∀ input left, Result.Answers
      (retry { patinput := input, errsfound := save.errsfound, exactpos := some left })
      (∃ m ≤ n, Align left input m))
    (hpos : save.exactpos = some (c :: exact))
    (hstop : save.patinput = [] ∨ save.patinput.head? ≠ some c) :
    (approximate retry (c :: exact) save).Answers
      (∃ m ≤ n + 1, Align (c :: exact) save.patinput m) := by
  obtain ⟨input, errs, pos⟩ := save
  obtain rfl : pos = some (c :: exact) := hpos
  cases input with
  | nil => exact (hretry [] exact).of_iff exists_align_nil_right_iff.symm
  | cons d nextin =>
    have hne : c ≠ d := by
      rintro rfl
      simp at hstop
    rw [exists_align_cons_cons_of_ne hne]
    refine (hretry nextin (c :: exact)).orElse fun st => ?_
    refine Result.Answers.orElse ?_ fun st => ?_
    · cases hswap : swapped (d :: nextin) (c :: exact) with
      | none =>
        refine answers_false _ ?_
        rintro ⟨xs, ys, rfl, rfl, -⟩
        simp [swapped] at hswap
      | some rest =>
        obtain ⟨input, left⟩ := rest
        refine (hretry input left).of_iff ?_
        unfold swapped at hswap
        split at hswap
        case h_2 => simp at hswap
        case h_1 cin0 cin1 input' cpa0 cpa1 exact' heq heq' =>
          obtain ⟨rfl, rfl⟩ := List.cons.inj heq
          obtain ⟨rfl, rfl⟩ := List.cons.inj heq'
          split at hswap
          case isFalse => simp at hswap
          case isTrue hcross =>
            obtain ⟨rfl, rfl⟩ := hcross
            obtain ⟨rfl, rfl⟩ := Prod.mk.inj (Option.some.inj hswap)
            constructor
            · intro h
              exact ⟨_, _, rfl, rfl, h⟩
            · rintro ⟨xs, ys, hxs, hys, h⟩
              obtain ⟨-, rfl⟩ := List.cons.inj hxs
              obtain ⟨-, rfl⟩ := List.cons.inj hys
              exact h
    · refine (hretry nextin exact).orElse fun st => ?_
      exact hretry (d :: nextin) exact

theorem patmatch_atEnd {maxerrs : Nat} {literal : Bytes} {n fuel : Nat} {st : ApproxState}
    (hn : st.errsfound + n = maxerrs) (hfuel : n < fuel) :
    (patmatch maxerrs literal fuel .atEnd st).Answers (∃ m ≤ n, Align [] st.patinput m) := by
  rw [exists_align_nil_left_iff]
  induction n generalizing fuel st with
  | zero =>
    obtain ⟨fuel, rfl⟩ : ∃ k, fuel = k + 1 := ⟨fuel - 1, by omega⟩
    obtain ⟨input, errs, pos⟩ := st
    cases input with
    | nil => exact ⟨true, _, rfl, by simp⟩
    | cons c input =>
      have herrs : ¬errs < maxerrs := by dsimp only at hn; omega
      simp only [patmatch, herrs, if_false]
      exact answers_false _ (by simp)
  | succ n ih =>
    obtain ⟨fuel, rfl⟩ : ∃ k, fuel = k + 1 := ⟨fuel - 1, by omega⟩
    obtain ⟨input, errs, pos⟩ := st
    cases input with
    | nil => exact ⟨true, _, rfl, by simp⟩
    | cons c input =>
      have herrs : errs < maxerrs := by dsimp only at hn; omega
      simp only [patmatch, herrs, if_true]
      have h := @ih fuel { patinput := input, errsfound := errs + 1, exactpos := pos }
        (by dsimp only at hn ⊢; omega) (by omega)
      exact h.of_iff (by simp)

theorem patmatch_exactly {maxerrs : Nat} {literal : Bytes} {n fuel : Nat} {st : ApproxState}
    (hn : st.errsfound + n = maxerrs) (hfuel : n + 1 < fuel) :
    (patmatch maxerrs literal fuel .exactly st).Answers
      (∃ m ≤ n, Align (st.exactpos.getD literal) st.patinput m) := by
  induction n using Nat.strong_induction_on generalizing fuel st with
  | _ n ih =>
  obtain ⟨fuel, rfl⟩ : ∃ k, fuel = k + 1 := ⟨fuel - 1, by omega⟩
  rw [← exactLoop_align]
  have hstops := exactLoop_stops (st.exactpos.getD literal) st.patinput
  generalize hr : exactLoop (st.exactpos.getD literal) st.patinput = r at hstops
  obtain ⟨left, input⟩ := r
  cases left with
  | nil =>
    simp only [patmatch, hr, if_true]
    exact patmatch_atEnd hn (by omega)
  | cons c left =>
    by_cases herrs : st.errsfound < maxerrs
    · obtain ⟨k, rfl⟩ : ∃ k, n = k + 1 := ⟨n - 1, by omega⟩
      simp only [patmatch, hr, reduceCtorEq, if_false, herrs, if_true]
      refine approximate_answers (fun input' left' => ?_) rfl ?_
      · exact @ih k (by omega) fuel
          { patinput := input', errsfound := st.errsfound + 1, exactpos := some left' }
          (by dsimp only; omega) (by omega)
      · rcases hstops with h | h | h
        · exact absurd h (List.cons_ne_nil _ _)
        · exact Or.inl h
        · exact Or.inr fun heq => h heq.symm
    · -- No error is left, and the literal does not go on.
      simp only [patmatch, hr, reduceCtorEq, if_false, herrs]
      refine answers_false _ ?_
      rintro ⟨m, hm, h⟩
      obtain rfl : m = 0 := by omega
      cases h with
      | keep => simp at hstops

theorem pureMatch_iff (pstr string : Bytes) : pureMatch pstr string = true ↔ pstr = string := by
  unfold pureMatch
  simp only [Bool.and_eq_true, decide_eq_true_eq]
  constructor
  · rintro ⟨⟨-, htake⟩, hlen⟩
    rw [← htake, ← hlen, List.take_length]
  · rintro rfl
    simp

/-- `(#aN)w` is a pattern, and with fuel for every error the search for it in a string returns and
succeeds just when the distance is `N` or less. -/
theorem pattry_iff_osaDistance_le (literal : Bytes) (hliteral : literal ≠ []) (maxerrs : Nat)
    (hmax : maxerrs ≤ 254) (string : Bytes) :
    ∃ prog, patcompile maxerrs literal = some prog ∧
      ∀ fuel, maxerrs + 2 ≤ fuel →
        ∃ b, pattry prog string fuel = some b ∧
          (b = true ↔ osaDistance literal string ≤ maxerrs) := by
  refine ⟨_, if_neg (by omega), fun fuel hfuel => ?_⟩
  by_cases h : maxerrs = 0
  · refine ⟨pureMatch literal string, by simp [pattry, h], ?_⟩
    rw [pureMatch_iff, h, Nat.le_zero, osaDistance_eq_zero_iff]
  · obtain ⟨b, st, hr, hb⟩ := @patmatch_exactly maxerrs literal maxerrs fuel
      { patinput := string, errsfound := 0, exactpos := none } (Nat.zero_add _) (by omega)
    refine ⟨b, by simp [pattry, h, hliteral, hr], ?_⟩
    exact hb.trans osaDistance_le_iff.symm

/-- One byte is left out and two are swapped. -/
theorem pattry_iff_osaDistance_le_swap :
    ([97, 98, 99, 100] : Bytes) ≠ [] ∧ 2 ≤ 254 ∧
      ∃ prog, patcompile 2 [97, 98, 99, 100] = some prog ∧
        ∀ fuel, 2 + 2 ≤ fuel →
          ∃ b, pattry prog [98, 97, 99] fuel = some b ∧
            (b = true ↔ osaDistance [97, 98, 99, 100] ([98, 97, 99] : Bytes) ≤ 2) :=
  ⟨by decide, by decide,
    pattry_iff_osaDistance_le [97, 98, 99, 100] (by decide) 2 (by decide) [98, 97, 99]⟩

end NextBSD.Zsh.Pattern.Approx
