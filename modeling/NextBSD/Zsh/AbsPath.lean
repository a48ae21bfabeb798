import NextBSD.Library.Segments
import NextBSD.Zsh.Metafy

/-!
# hist.c: the modifier `:a`

`chabspath` works in place: what has been written stands in front of what has not been read.
Memory ends with the `NUL` of the string.  `HAVE_SUPERROOT` is not defined.
-/

namespace NextBSD.Zsh.AbsPath

open Rounds Segments

/-! ## The program -/

/-- The memory, where it is read and written, and a record of each write: where it went, and up to
where the string had been looked at. -/
structure Loop where
  mem : Bytes
  current : Nat
  dest : Nat
  writes : List (Nat × Nat)
  deriving DecidableEq, Repr

/-- `*dest++ = c`. -/
def Loop.put (s : Loop) (c : UInt8) (read : Nat) : Option Loop :=
  (poke s.mem s.dest c).map fun mem =>
    { s with mem := mem, dest := s.dest + 1, writes := s.writes ++ [(s.dest, read)] }

/-- `*dest++ = *current++`. -/
def Loop.copy (s : Loop) : Option Loop :=
  match s.mem[s.current]? with
  | none => none
  | some c => (s.put c s.current).map fun s => { s with current := s.current + 1 }

/-- `while (*current == '/') current++`. -/
def Loop.skipSlashes (s : Loop) : Loop :=
  { s with current := s.current + ((s.mem.drop s.current).takeWhile (· = 47)).length }

/-- The loop over a component, which has no more than `left` bytes in memory. -/
def copyName : Nat → Loop → Option Loop
  | 0, _ => none
  | left + 1, s =>
    match s.mem[s.current]? with
    | none => none
    | some c =>
      if c = 47 ∨ c = 0 then some s
      else if c = 0x83 then (s.copy.bind Loop.copy).bind (copyName left)
      else s.copy.bind (copyName left)

/-- `while (dest > *junkptr + 1 && dest[-1] == '/') dest--`. -/
def trim (mem : Bytes) : Nat → Nat
  | 0 => 0
  | dest + 1 => if 0 < dest ∧ mem[dest]? = some 47 then trim mem dest else dest + 1

/-- `while (dest > *junkptr + 1 && dest[-1] != '/') dest--`. -/
def back (mem : Bytes) : Nat → Nat
  | 0 => 0
  | dest + 1 => if 0 < dest ∧ mem[dest]? ≠ some 47 then back mem dest else dest + 1

def Loop.keepDots (s : Loop) : Loop ⊕ Option (Bool × Loop) :=
  match (s.put 46 s.current).bind fun s => s.put 46 (s.current + 1) with
  | none => .inr none
  | some s => .inl { s with current := s.current + 2 }

def Loop.dropName (s : Loop) : Loop ⊕ Option (Bool × Loop) :=
  match poke s.mem s.dest 0 with
  | none => .inr none
  | some mem =>
    let dest := back mem (s.dest - 1)
    let dest := if mem[dest - 1]? ≠ some 47 then dest - 1 else dest
    let current := s.current + 2
    .inl { mem := mem
           current := if mem[current]? = some 47 then current + 1 else current
           dest := dest
           writes := s.writes ++ [(s.dest, s.current)] }

def Loop.dotdot (s : Loop) : Loop ⊕ Option (Bool × Loop) :=
  if s.current = 0 ∨ s.dest = 0 then s.keepDots
  else if 2 < s.dest ∧ (s.mem.drop (s.dest - 3)).take 3 = [46, 46, 47] then s.keepDots
  else if 1 < s.dest then s.dropName
  else if s.dest = 1 then .inl { s with current := s.current + 2 }
  else .inr (some (false, s))

def step (s : Loop) : Loop ⊕ Option (Bool × Loop) :=
  match s.mem[s.current]? with
  | none => .inr none
  | some c =>
    if c = 47 then
      match s.copy with
      | none => .inr none
      | some s => .inl s.skipSlashes
    else if c = 0 then
      let dest := trim s.mem s.dest
      match poke s.mem dest 0 with
      | none => .inr none
      | some mem =>
        .inr (some (true, { s with mem := mem, dest := dest
                                   writes := s.writes ++ [(dest, s.current)] }))
    else if c = 46 ∧ s.mem[s.current + 1]? = some 46 ∧
        (s.mem[s.current + 2]? = some 0 ∨ s.mem[s.current + 2]? = some 47) then s.dotdot
    else if c = 46 ∧ (s.mem[s.current + 1]? = some 47 ∨ s.mem[s.current + 1]? = some 0) then
      .inl { s with current := s.current + 1 }.skipSlashes
    else
      match copyName (s.mem.length - s.current) s with
      | none => .inr none
      | some s => .inl s

/-- What `chabspath` returns, the string that it leaves, and its writes. -/
structure Answer where
  ret : Bool
  path : Bytes
  writes : List (Nat × Nat)
  deriving DecidableEq, Repr

/-- The path behind the current directory `here`, if it is relative. -/
def fullPath (here path : Bytes) : Bytes :=
  if path.head? = some 47 then path
  else if here.getLast? = some 47 then here ++ path
  else metafy here ++ 47 :: path

/-- `chabspath`, where `zgetcwd` returns `here`.  `none` stands for a read or a write outside of the
string, and for a loop that does not end. -/
def chabspath (here path : Bytes) : Option Answer :=
  if path = [] then some { ret := true, path := [], writes := [] }
  else
    let mem := fullPath here path ++ [0]
    match run step (mem.length + 1) { mem := mem, current := 0, dest := 0, writes := [] } with
    | some (some (ret, s)) =>
      some { ret := ret, path := s.mem.takeWhile (· ≠ 0), writes := s.writes }
    | _ => none

variable {s : Loop} {D rest : Bytes} {c : UInt8}

/-- `D` has been written and `rest` has not been read.  No write went beyond the reading. -/
def Holds (s : Loop) (D rest : Bytes) : Prop :=
  ∃ gap, s.mem = D ++ (gap ++ rest) ∧ s.dest = D.length ∧ s.current = D.length + gap.length ∧
    ∀ w ∈ s.writes, w.1 ≤ w.2

theorem Holds.next (h : Holds s D rest) (i : Nat) : s.mem[s.current + i]? = rest[i]? := by
  obtain ⟨gap, hmem, -, hcurrent, -⟩ := h
  rw [hmem, hcurrent, ← List.append_assoc, ← List.length_append,
    List.getElem?_append_right (Nat.le_add_right _ _), Nat.add_sub_cancel_left]

theorem Holds.current (h : Holds s D (c :: rest)) : s.mem[s.current]? = some c := h.next 0

theorem Holds.skip (front : Bytes) (h : Holds s D (front ++ rest)) :
    Holds { s with current := s.current + front.length } D rest := by
  obtain ⟨gap, hmem, hdest, hcurrent, hwrites⟩ := h
  refine ⟨gap ++ front, ?_, hdest, ?_, hwrites⟩
  · show s.mem = _
    rw [hmem, List.append_assoc]
  · show s.current + front.length = _
    rw [hcurrent, List.length_append, Nat.add_assoc]

theorem Holds.put (x : UInt8) (front : Bytes) (i : Nat) (h : Holds s D (front ++ rest))
    (hi : i < front.length) :
    ∃ mem, poke s.mem s.dest x = some mem ∧ s.dest ≤ s.current + i ∧
      Holds { s with mem := mem, current := s.current + front.length, dest := s.dest + 1
                     writes := s.writes ++ [(s.dest, s.current + i)] } (D ++ [x]) rest := by
  obtain ⟨gap, hmem, hdest, hcurrent, hwrites⟩ := h
  obtain ⟨y, gap', hgap⟩ : ∃ y gap', gap ++ front = y :: gap' := by
    refine List.exists_cons_of_ne_nil fun hnil => ?_
    have hlength := congrArg List.length hnil
    rw [List.length_append, List.length_nil] at hlength
    omega
  have hlength := congrArg List.length hgap
  rw [List.length_append, List.length_cons] at hlength
  rw [← List.append_assoc gap, hgap] at hmem
  refine ⟨D ++ x :: (gap' ++ rest), ?_, by omega, gap', ?_, ?_, ?_, ?_⟩
  · rw [hmem, hdest, List.cons_append]
    exact poke_append _ _ _ _
  · simp
  · simp [hdest]
  · simp only [List.length_append, List.length_singleton]
    omega
  · intro w hw
    rcases List.mem_append.mp hw with hw | hw
    · exact hwrites w hw
    · rw [List.mem_singleton.mp hw]
      dsimp only
      omega

theorem Holds.copy (h : Holds s D (c :: rest)) :
    ∃ s', s.copy = some s' ∧ Holds s' (D ++ [c]) rest := by
  obtain ⟨mem, hpoke, -, hholds⟩ := Holds.put c [c] 0 h (by simp)
  refine ⟨_, ?_, hholds⟩
  rw [Loop.copy, h.current]
  simp [Loop.put, hpoke]

theorem Holds.skipSlashes (h : Holds s D rest) :
    Holds s.skipSlashes D (rest.dropWhile (· = 47)) := by
  have hdrop : s.mem.drop s.current = rest := by
    obtain ⟨gap, hmem, -, hcurrent, -⟩ := h
    rw [hmem, hcurrent, ← List.append_assoc, ← List.length_append, List.drop_left]
  rw [Loop.skipSlashes, hdrop]
  refine Holds.skip _ ?_
  rwa [List.takeWhile_append_dropWhile]

/-! ## Rounds -/

theorem step_slash (h : Holds s D (47 :: rest)) :
    ∃ s', step s = .inl s' ∧ Holds s' (D ++ [47]) (rest.dropWhile (· = 47)) := by
  obtain ⟨s', hcopy, hholds⟩ := h.copy
  refine ⟨s'.skipSlashes, ?_, hholds.skipSlashes⟩
  unfold step
  rw [h.current]
  simp only [if_true, hcopy]

theorem trim_eq (D rest : Bytes) : trim (D ++ rest) D.length = (trimEnd 47 D).length := by
  induction D using List.reverseRecOn generalizing rest with
  | nil => rfl
  | append_singleton D c ih =>
    rw [List.length_append, List.length_singleton, trim, List.append_assoc, List.singleton_append,
      peek_append]
    cases D with
    | nil => simp [trimEnd]
    | cons d D =>
      split_ifs with hsep
      · obtain rfl := Option.some.inj hsep.2
        rw [ih, trimEnd_append_sep (List.cons_ne_nil d D)]
      · have hne : c ≠ 47 := fun e => hsep ⟨Nat.succ_pos _, congrArg some e⟩
        rw [trimEnd_append (List.cons_ne_nil c []) (by simpa using hne.symm)
          (List.cons_ne_nil d D), List.length_append, List.length_singleton]

theorem trimEnd_prefix (sep : UInt8) (D : Bytes) : trimEnd sep D <+: D := by
  cases D with
  | nil => exact List.prefix_rfl
  | cons d D => exact List.cons_prefix_cons.mpr ⟨rfl, List.rdropWhile_prefix _ _⟩

theorem step_end (h : Holds s D (0 :: rest)) (hnul : 0 ∉ D) :
    ∃ s', step s = .inr (some (true, s')) ∧ s'.mem.takeWhile (· ≠ 0) = trimEnd 47 D ∧
      ∀ w ∈ s'.writes, w.1 ≤ w.2 := by
  have hcurrent := h.current
  obtain ⟨gap, hmem, hdest, hcur, hwrites⟩ := h
  have htrim : trim s.mem s.dest = (trimEnd 47 D).length := by
    rw [hmem, hdest]
    exact trim_eq D _
  have hprefix := trimEnd_prefix 47 D
  obtain ⟨y, t, ht⟩ : ∃ y t, s.mem = trimEnd 47 D ++ y :: t := by
    obtain ⟨u, hu⟩ := hprefix
    obtain ⟨y, t, ht⟩ : ∃ y t, u ++ (gap ++ 0 :: rest) = y :: t :=
      List.exists_cons_of_ne_nil (by simp)
    exact ⟨y, t, by rw [hmem, ← hu, List.append_assoc, ht, hu]⟩
  have hpoke : poke s.mem (trimEnd 47 D).length 0 = some (trimEnd 47 D ++ 0 :: t) := by
    rw [ht]
    exact poke_append _ _ _ _
  refine ⟨{ s with mem := trimEnd 47 D ++ 0 :: t, dest := (trimEnd 47 D).length
                   writes := s.writes ++ [((trimEnd 47 D).length, s.current)] }, ?_, ?_, ?_⟩
  · unfold step
    rw [hcurrent]
    simp only [htrim, hpoke, show (0 : UInt8) ≠ 47 by decide, if_false, if_true]
  · show (trimEnd 47 D ++ 0 :: t).takeWhile (· ≠ 0) = _
    rw [List.takeWhile_append_of_pos]
    · simp
    · intro c hc
      exact decide_eq_true fun e => hnul (e ▸ hprefix.subset hc)
  · intro w hw
    rcases List.mem_append.mp hw with hw | hw
    · exact hwrites w hw
    · have hle := hprefix.length_le
      rw [List.mem_singleton.mp hw]
      dsimp only
      omega

theorem step_dot (h : Holds s D (46 :: c :: rest)) (hc : c = 47 ∨ c = 0) :
    ∃ s', step s = .inl s' ∧ Holds s' D ((c :: rest).dropWhile (· = 47)) := by
  have hskip : Holds { s with current := s.current + 1 } D (c :: rest) := Holds.skip [46] h
  refine ⟨_, ?_, hskip.skipSlashes⟩
  have hnext : s.mem[s.current + 1]? = some c := h.next 1
  unfold step
  rw [h.current, hnext]
  rcases hc with rfl | rfl <;> simp

theorem step_dotdot (h : Holds s D (46 :: 46 :: c :: rest)) (hc : c = 0 ∨ c = 47) :
    step s = s.dotdot := by
  have hnext : s.mem[s.current + 1]? = some 46 := h.next 1
  have hafter : s.mem[s.current + 2]? = some c := h.next 2
  unfold step
  rw [h.current, hnext, hafter]
  rcases hc with rfl | rfl <;> simp

theorem keepDots_holds (h : Holds s D (46 :: 46 :: rest)) :
    ∃ s', s.keepDots = .inl s' ∧ Holds s' (D ++ [46, 46]) rest := by
  obtain ⟨mem, hpoke, -, hholds⟩ := Holds.put 46 [46] 0 h (by simp)
  obtain ⟨mem', hpoke', -, hholds'⟩ := Holds.put 46 [46] 0 hholds (by simp)
  refine ⟨_, ?_, by simpa using hholds'⟩
  dsimp only at hpoke'
  simp only [Loop.keepDots, Loop.put, hpoke, Option.map_some, Option.bind_some, hpoke',
    List.append_assoc]
  rfl

theorem Holds.shrink {E : Bytes} (h : Holds s (D ++ E) rest) :
    Holds { s with dest := D.length } D rest := by
  obtain ⟨gap, hmem, hdest, hcurrent, hwrites⟩ := h
  refine ⟨E ++ gap, ?_, rfl, ?_, hwrites⟩
  · show s.mem = _
    rw [hmem, List.append_assoc, List.append_assoc]
  · show s.current = _
    rw [hcurrent, List.length_append, List.length_append]
    omega

theorem back_eq {c : Bytes} (D rest : Bytes) (hc : 47 ∉ c) :
    back (D ++ [47] ++ c ++ rest) (D ++ [47] ++ c).length = (D ++ [47]).length := by
  induction c using List.reverseRecOn generalizing rest with
  | nil =>
    rw [List.append_nil, List.length_append, List.length_singleton, back]
    have hpeek : (D ++ [47] ++ rest)[D.length]? = some 47 := by
      rw [List.append_assoc]
      exact peek_append _ _ _
    rw [hpeek, if_neg fun h => h.2 rfl]
  | append_singleton c x ih =>
    have hx : x ≠ 47 := fun e => hc (by simp [e])
    have hpeek : (D ++ [47] ++ (c ++ [x]) ++ rest)[(D ++ [47] ++ c).length]? = some x := by
      rw [← List.append_assoc, List.append_assoc _ [x]]
      exact peek_append _ _ _
    have hlength : (D ++ [47] ++ (c ++ [x])).length = (D ++ [47] ++ c).length + 1 := by
      simp only [List.length_append, List.length_singleton]
      omega
    rw [hlength, back, hpeek, if_pos ⟨by simp, fun e => hx (Option.some.inj e)⟩,
      ← List.append_assoc, List.append_assoc _ [x]]
    exact ih _ fun h => hc (List.mem_append_left _ h)

theorem rooted_eq_concat (sep : UInt8) (ps : List Bytes) : ∃ D, rooted sep ps = D ++ [sep] := by
  induction ps using List.reverseRecOn with
  | nil => exact ⟨[], rfl⟩
  | append_singleton ps p ih => exact ⟨rooted sep ps ++ p, by rw [rooted_concat, List.append_assoc]⟩

theorem dropName_holds {ps : List Bytes} {p : Bytes} (hp : 47 ∉ p)
    (h : Holds s (rooted 47 (ps ++ [p])) (46 :: 46 :: rest)) :
    ∃ s', s.dropName = .inl s' ∧
      Holds s' (rooted 47 ps) (if rest.head? = some 47 then rest.tail else rest) := by
  obtain ⟨mem, hpoke, -, hholds⟩ := Holds.put 0 [46, 46] 0 h (by simp)
  obtain ⟨D, hD⟩ := rooted_eq_concat 47 ps
  have hholds' := hholds
  obtain ⟨gap, hmem, hdest, hcurrent, -⟩ := hholds'
  dsimp only at hmem hcurrent
  rw [rooted_concat, hD] at hmem
  have hlast : s.dest - 1 = (D ++ [47] ++ p).length := by
    obtain ⟨-, -, hdest', -⟩ := h
    rw [hdest', rooted_concat, hD]
    simp only [List.length_append, List.length_singleton]
    omega
  have hback : back mem (s.dest - 1) = (D ++ [47]).length := by
    rw [hlast, hmem]
    simpa only [List.append_assoc] using back_eq D ([47] ++ ([0] ++ (gap ++ rest))) hp
  have hslash : mem[(D ++ [47]).length - 1]? = some 47 := by
    rw [hmem, List.length_append, List.length_singleton, Nat.add_sub_cancel]
    simp only [List.append_assoc, List.singleton_append]
    exact peek_append _ _ _
  rw [rooted_concat, List.append_assoc] at hholds
  have hshrunk := hholds.shrink
  have hnext : mem[s.current + 2]? = rest.head? := by
    rw [List.head?_eq_getElem?]
    exact hholds.next 0
  refine ⟨{ mem := mem
            current := if mem[s.current + 2]? = some 47 then s.current + 2 + 1 else s.current + 2
            dest := (D ++ [47]).length
            writes := s.writes ++ [(s.dest, s.current)] }, ?_, ?_⟩
  · simp only [Loop.dropName, hpoke, hback, hslash, ne_eq, not_true_eq_false, if_false]
  · rw [hnext, ← hD]
    split_ifs with hhead
    · obtain ⟨t, rfl⟩ : ∃ t, rest = 47 :: t := List.head?_eq_some_iff.mp hhead
      exact Holds.skip [47] hshrunk
    · exact hshrunk

theorem dots_iff {ps : List Bytes} {p : Bytes} (h : Holds s (rooted 47 (ps ++ [p])) rest) :
    2 < s.dest ∧ (s.mem.drop (s.dest - 3)).take 3 = [46, 46, 47] ↔ [46, 46] <:+ p := by
  obtain ⟨gap, hmem, hdest, -, -⟩ := h
  obtain ⟨D, hD⟩ := rooted_eq_concat 47 ps
  rw [rooted_concat, hD] at hmem hdest
  constructor
  · rintro ⟨hlt, hdots⟩
    have hdrop : (D ++ [47] ++ (p ++ [47])).drop (s.dest - 3) = [46, 46, 47] := by
      rw [hmem, List.drop_append_of_le_length (by omega),
        List.take_append_of_le_length (by rw [List.length_drop]; omega)] at hdots
      rwa [List.take_of_length_le (by rw [List.length_drop]; omega)] at hdots
    have hsuffix : [46, 46, 47] <:+ D ++ [47] ++ (p ++ [47]) := hdrop ▸ List.drop_suffix _ _
    obtain ⟨E, hE⟩ := hsuffix
    have hfront : E ++ [46, 46] = D ++ [47] ++ p := by
      have happend : (E ++ [46, 46]) ++ [47] = (D ++ [47] ++ p) ++ [47] := by
        simpa using hE
      exact List.append_cancel_right happend
    rcases p with _ | ⟨x, _ | ⟨y, p⟩⟩
    · -- the slash in front of `p` would be a dot
      have hlast : (E ++ [46]) ++ [46] = D ++ [47] := by simpa using hfront
      cases (List.append_inj' hlast rfl).2
    · have hlast : E ++ [46, 46] = D ++ [47, x] := by simpa using hfront
      cases (List.append_inj' hlast rfl).2
    · have hsuffix : [46, 46] <:+ D ++ [47] ++ x :: y :: p := hfront ▸ List.suffix_append _ _
      exact List.suffix_of_suffix_length_le hsuffix (List.suffix_append _ _) (Nat.le_add_left 2 _)
  · rintro ⟨q, rfl⟩
    have hlength : s.dest = (D ++ [47] ++ q).length + 3 := by
      rw [hdest]
      simp only [List.length_append, List.length_cons, List.length_nil]
      omega
    refine ⟨by omega, ?_⟩
    rw [hmem, hlength, Nat.add_sub_cancel]
    have hsplit : D ++ [47] ++ (q ++ [46, 46] ++ [47]) ++ (gap ++ rest) =
        (D ++ [47] ++ q) ++ ([46, 46, 47] ++ (gap ++ rest)) := by simp
    rw [hsplit, List.drop_left]
    rfl

theorem dotdot_keep {ps : List Bytes} {p : Bytes} (hp : [46, 46] <:+ p)
    (h : Holds s (rooted 47 (ps ++ [p])) rest) : s.dotdot = s.keepDots := by
  unfold Loop.dotdot
  rw [if_pos ((dots_iff h).mpr hp), ite_self]

theorem Holds.started {ps : List Bytes} (h : Holds s (rooted 47 ps) rest) :
    ¬(s.current = 0 ∨ s.dest = 0) := by
  obtain ⟨gap, -, hdest, hcurrent, -⟩ := h
  have hpos : 0 < (rooted 47 ps).length := Nat.succ_pos _
  omega

theorem dotdot_drop {ps : List Bytes} {p : Bytes} (hp : ¬[46, 46] <:+ p)
    (h : Holds s (rooted 47 (ps ++ [p])) rest) : s.dotdot = s.dropName := by
  have hdest : 1 < s.dest := by
    obtain ⟨gap, -, hdest, -, -⟩ := h
    rw [hdest, rooted_concat]
    simp [rooted]
  unfold Loop.dotdot
  rw [if_neg h.started, if_neg fun hdots => hp ((dots_iff h).mp hdots), if_pos hdest]

theorem dotdot_root (h : Holds s (rooted 47 []) rest) :
    s.dotdot = .inl { s with current := s.current + 2 } := by
  have hdest : s.dest = 1 := h.choose_spec.2.1
  unfold Loop.dotdot
  rw [if_neg h.started, if_neg (by omega), if_neg (by omega), if_pos hdest]

theorem not_mem_metafy {c : UInt8} (hc : imeta c = false) (hflip : imeta (c ^^^ 32) = false)
    {y : Bytes} (hy : c ∉ y) : c ∉ metafy y := by
  intro hmem
  obtain ⟨x, hx, hcx⟩ := List.mem_flatMap.mp hmem
  split_ifs at hcx with himeta
  · rcases List.mem_cons.mp hcx with rfl | hcx
    · cases hc
    · obtain rfl := List.mem_singleton.mp hcx
      rw [flip_flip, himeta] at hflip
      cases hflip
  · obtain rfl := List.mem_singleton.mp hcx
    exact hy hx

theorem not_mem_metafy_nul (y : Bytes) : 0 ∉ metafy y := by
  intro hmem
  obtain ⟨x, -, hx⟩ := List.mem_flatMap.mp hmem
  split_ifs at hx with himeta
  · rcases List.mem_cons.mp hx with h | hx
    · cases h
    · have hflip := flip_flip x
      rw [← List.mem_singleton.mp hx] at hflip
      rw [← hflip] at himeta
      cases himeta
  · rw [← List.mem_singleton.mp hx] at himeta
    exact himeta rfl

theorem copyName_holds {y : Bytes} {n : Nat} (hy : 47 ∉ y) (hc : c = 47 ∨ c = 0)
    (hleft : (metafy y).length < n) (h : Holds s D (metafy y ++ c :: rest)) :
    ∃ s', copyName n s = some s' ∧ Holds s' (D ++ metafy y) (c :: rest) := by
  induction y generalizing s D n with
  | nil =>
    obtain ⟨k, rfl⟩ : ∃ k, n = k + 1 := ⟨n - 1, by omega⟩
    refine ⟨s, ?_, by simpa [metafy] using h⟩
    have hcurrent : s.mem[s.current]? = some c := Holds.current (by simpa [metafy] using h)
    rw [copyName, hcurrent]
    simp only [hc, if_true]
  | cons x y ih =>
    obtain ⟨k, rfl⟩ : ∃ k, n = k + 1 := ⟨n - 1, by omega⟩
    have hx : x ≠ 47 := fun e => hy (e ▸ .head _)
    rw [metafy_cons] at h hleft ⊢
    by_cases himeta : imeta x = true
    · rw [if_pos himeta, List.append_assoc] at h
      rw [if_pos himeta, List.length_append] at hleft
      obtain ⟨s₁, hcopy, h₁⟩ := Holds.copy (c := 0x83) h
      obtain ⟨s₂, hcopy', h₂⟩ := h₁.copy
      obtain ⟨s', hrun, h'⟩ := ih (n := k) (fun hm => hy (.tail _ hm))
        (by simp only [List.length_cons, List.length_nil] at hleft; omega) h₂
      refine ⟨s', ?_, ?_⟩
      · have hcurrent := Holds.current (c := 0x83) h
        rw [copyName, hcurrent]
        simp [hcopy, hcopy', hrun]
      · rw [if_pos himeta]
        simpa using h'
    · rw [if_neg himeta, List.append_assoc] at h
      rw [if_neg himeta, List.length_append] at hleft
      have hne : x ≠ 0 ∧ x ≠ 0x83 := by
        constructor <;> rintro rfl <;> exact himeta rfl
      obtain ⟨s₁, hcopy, h₁⟩ := Holds.copy (c := x) h
      obtain ⟨s', hrun, h'⟩ := ih (n := k) (fun hm => hy (.tail _ hm))
        (by simp only [List.length_cons, List.length_nil] at hleft; omega) h₁
      refine ⟨s', ?_, ?_⟩
      · have hcurrent := Holds.current (c := x) h
        rw [copyName, hcurrent]
        simp [hx, hne.1, hne.2, hcopy, hrun]
      · rw [if_neg himeta]
        simpa using h'

theorem step_name {y : Bytes} (hy : 47 ∉ y) (hne : metafy y ≠ []) (hdot : metafy y ≠ [46])
    (hdotdot : metafy y ≠ [46, 46]) (hc : c = 47 ∨ c = 0) (h : Holds s D (metafy y ++ c :: rest)) :
    ∃ s', step s = .inl s' ∧ Holds s' (D ++ metafy y) (c :: rest) := by
  have hlength : (metafy y).length < s.mem.length - s.current := by
    obtain ⟨gap, hmem, -, hcurrent, -⟩ := h
    rw [hmem, hcurrent]
    simp only [List.length_append, List.length_cons]
    omega
  obtain ⟨s', hcopy, h'⟩ := copyName_holds hy hc hlength h
  refine ⟨s', ?_, h'⟩
  have hslash : 47 ∉ metafy y := not_mem_metafy rfl rfl hy
  have hnul := not_mem_metafy_nul y
  have hnext (i : Nat) : s.mem[s.current + i]? = (metafy y ++ c :: rest)[i]? := h.next i
  have hzero : s.mem[s.current]? = (metafy y ++ c :: rest)[0]? := hnext 0
  unfold step
  rw [hzero, hnext 1, hnext 2, hcopy]
  generalize metafy y = p at hne hdot hdotdot hslash hnul
  rcases p with _ | ⟨a, _ | ⟨b, _ | ⟨d, p⟩⟩⟩
  · exact absurd rfl hne
  · have ha : a ≠ 46 := fun e => hdot (e ▸ rfl)
    simp only [List.mem_singleton] at hslash hnul
    simp [ha, Ne.symm hslash, Ne.symm hnul]
  · simp only [List.mem_cons, List.not_mem_nil, or_false, not_or] at hslash hnul
    have hab : ¬(a = 46 ∧ b = 46) := fun e => hdotdot (by rw [e.1, e.2])
    simp [Ne.symm hslash.1, Ne.symm hnul.1, Ne.symm hslash.2, Ne.symm hnul.2]
    intro ha hb
    exact absurd ⟨ha, hb⟩ hab
  · simp only [List.mem_cons, not_or] at hslash hnul
    simp [Ne.symm hslash.1, Ne.symm hnul.1, Ne.symm hslash.2.1, Ne.symm hnul.2.1,
      Ne.symm hslash.2.2.1, Ne.symm hnul.2.2.1]

end NextBSD.Zsh.AbsPath
