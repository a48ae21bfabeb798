import Mathlib.Algebra.Order.BigOperators.Group.List
import Mathlib.Algebra.Order.Group.Nat
import NextBSD.Libpkg.Ports.Line

/-!
# pkg_ports.c: the variables in a line

A line is scanned for names between two `%%`.  The code finds a variable by the start of its name:
what is only how the name of a variable starts, as the empty name is, is replaced as well.
-/

namespace NextBSD.Libpkg.Ports

open Manifest (Bytes)

/-- No blank, and none of the `%%` that ends it. -/
structure IsName (name : Bytes) : Prop where
  solid : ∀ c ∈ name, isspace c = false
  first : ¬ [37, 37] <:+: name ++ [37]

/-- A name between `%%` is at the start. -/
def Starts (line : Bytes) : Prop :=
  ∃ name rest, IsName name ∧ line = 37 :: 37 :: name ++ 37 :: 37 :: rest

inductive Segment where
  | text (c : UInt8)
  | name (name : Bytes)
  deriving DecidableEq, Repr

inductive Scans : Bytes → List Segment → Prop
  | nil : Scans [] []
  | name {name rest : Bytes} {segs : List Segment} (hname : IsName name)
      (hrest : Scans rest segs) : Scans (37 :: 37 :: name ++ 37 :: 37 :: rest) (.name name :: segs)
  | text {c : UInt8} {rest : Bytes} {segs : List Segment} (hstarts : ¬ Starts (c :: rest))
      (hrest : Scans rest segs) : Scans (c :: rest) (.text c :: segs)

/-- A name that is not defined is kept, with the `%%` around it. -/
def kept (name : Bytes) : Bytes := 37 :: 37 :: name ++ [37, 37]

def expected (vars : List (Bytes × Bytes)) : Segment → Bytes
  | .text c => [c]
  | .name name =>
    match vars.find? (fun kv => kv.1 = name) with
    | some kv => kv.2
    | none => kept name

def Expanded (vars : List (Bytes × Bytes)) (line out : Bytes) : Prop :=
  ∃ segs, Scans line segs ∧ out = segs.flatMap (expected vars)

def found (vars : List (Bytes × Bytes)) : Segment → Bytes
  | .text c => [c]
  | .name name =>
    match vars.find? (fun kv => name <+: kv.1) with
    | some kv => kv.2
    | none => kept name

theorem IsName.nil : IsName [] :=
  { solid := fun c hc => absurd hc List.not_mem_nil
    first := fun h => absurd h.length_le (by decide) }

theorem isName_cons {c : UInt8} {name : Bytes} : IsName (c :: name) ↔
    isspace c = false ∧ ¬ (c = 37 ∧ (name ++ [37]).head? = some 37) ∧ IsName name := by
  constructor
  · intro h
    refine ⟨h.solid c List.mem_cons_self, fun hc => h.first ?_,
      fun d hd => h.solid d (List.mem_cons_of_mem c hd), fun hin => h.first ?_⟩
    · obtain ⟨rfl, hhead⟩ := hc
      obtain ⟨rest, hrest⟩ := List.head?_eq_some_iff.mp hhead
      rw [List.cons_append, hrest]
      exact ⟨[], rest, rfl⟩
    · rw [List.cons_append, List.infix_cons_iff]
      exact Or.inr hin
  · rintro ⟨hc, hpair, hsolid, hfirst⟩
    refine ⟨List.forall_mem_cons.mpr ⟨hc, hsolid⟩, fun hin => ?_⟩
    rw [List.cons_append, List.infix_cons_iff] at hin
    rcases hin with hin | hin
    · obtain ⟨rfl, rest, hrest⟩ := List.cons_prefix_cons.mp hin
      exact hpair ⟨rfl, by rw [← hrest]; rfl⟩
    · exact hfirst hin

theorem head?_append_pair (name rest : Bytes) :
    (name ++ 37 :: 37 :: rest).head? = (name ++ [37]).head? := by
  cases name <;> rfl

theorem closing_of_name {name : Bytes} (h : IsName name) (rest : Bytes) :
    closing (name ++ 37 :: 37 :: rest) = some name.length := by
  induction name with
  | nil => rfl
  | cons c name ih =>
    obtain ⟨hc, hpair, hname⟩ := isName_cons.mp h
    rw [List.cons_append, closing, if_neg (by rw [hc]; exact Bool.noConfusion),
      if_neg (by rwa [head?_append_pair]), ih hname]
    rfl

theorem name_of_closing {cp : Bytes} {n : Nat} (h : closing cp = some n) :
    ∃ name rest, IsName name ∧ cp = name ++ 37 :: 37 :: rest ∧ name.length = n := by
  induction cp generalizing n with
  | nil => exact nomatch h
  | cons c cp ih =>
    unfold closing at h
    by_cases hc : isspace c = true
    · rw [if_pos hc] at h
      exact nomatch h
    · rw [if_neg hc] at h
      by_cases hpair : c = 37 ∧ cp.head? = some 37
      · rw [if_pos hpair] at h
        obtain ⟨rfl, hhead⟩ := hpair
        obtain ⟨rest, rfl⟩ := List.head?_eq_some_iff.mp hhead
        exact ⟨[], rest, IsName.nil, rfl, Option.some.inj h⟩
      · rw [if_neg hpair] at h
        obtain ⟨m, hm, rfl⟩ := Option.map_eq_some_iff.mp h
        obtain ⟨name, rest, hname, rfl, rfl⟩ := ih hm
        rw [head?_append_pair] at hpair
        exact ⟨c :: name, rest, isName_cons.mpr ⟨Bool.eq_false_iff.mpr hc, hpair, hname⟩, rfl, rfl⟩

theorem starts_iff {line : Bytes} :
    Starts line ↔ ∃ cp n, line = 37 :: 37 :: cp ∧ closing cp = some n := by
  constructor
  · rintro ⟨name, rest, hname, rfl⟩
    exact ⟨_, _, rfl, closing_of_name hname rest⟩
  · rintro ⟨cp, n, rfl, hclosing⟩
    obtain ⟨name, rest, hname, rfl, -⟩ := name_of_closing hclosing
    exact ⟨name, rest, hname, rfl⟩

theorem Scans.unique {line : Bytes} {segs segs' : List Segment} (h : Scans line segs)
    (h' : Scans line segs') : segs = segs' := by
  induction h generalizing segs' with
  | nil => cases h' with
    | nil => rfl
  | @name name rest segs hname hrest ih =>
    generalize hline : 37 :: 37 :: name ++ 37 :: 37 :: rest = line at h'
    cases h' with
    | nil => exact nomatch hline
    | @name name' rest' segs' hname' hrest' =>
      simp only [List.cons_append, List.cons.injEq, true_and] at hline
      have hlen := closing_of_name hname rest
      rw [hline, closing_of_name hname' rest'] at hlen
      obtain ⟨rfl, hrest⟩ := List.append_inj hline (Option.some.inj hlen).symm
      obtain rfl : rest = rest' := by simpa using hrest
      rw [ih hrest']
    | text hstarts hrest' => exact absurd ⟨name, rest, hname, hline.symm⟩ hstarts
  | @text c rest segs hstarts hrest ih =>
    generalize hline : c :: rest = line at h'
    cases h' with
    | nil => exact nomatch hline
    | @name name' rest' segs' hname' hrest' => exact absurd ⟨name', rest', hname', hline⟩ hstarts
    | text hstarts' hrest' =>
      obtain ⟨rfl, rfl⟩ := List.cons.inj hline
      rw [ih hrest']

/-! ## The scan of the code -/

theorem printed_eq {n : Nat} {cp : Bytes} (h : n < 2 ^ 31) : printed n cp = cp.take n := by
  unfold printed
  rw [Nat.mod_eq_of_lt (by omega), if_pos h]

theorem expandFrom_drop (vars : List (Bytes × Bytes)) (n : Nat) (line : Bytes) :
    expandFrom vars n line = expandFrom vars 0 (line.drop n) := by
  induction n generalizing line with
  | zero => rfl
  | succ n ih =>
    cases line with
    | nil => rfl
    | cons c rest =>
      rw [expandFrom, ih]
      rfl

theorem scans_run {cp : Bytes} {segs : List Segment} (h : closing cp = none)
    (hrest : Scans (cp.dropWhile fun c => !isspace c) segs) :
    Scans cp ((cp.takeWhile fun c => !isspace c).map Segment.text ++ segs) := by
  induction cp with
  | nil => exact hrest
  | cons c cp ih =>
    by_cases hc : isspace c = true
    · rw [List.dropWhile_cons_of_neg (by rw [hc]; exact Bool.noConfusion)] at hrest
      rwa [List.takeWhile_cons_of_neg (by rw [hc]; exact Bool.noConfusion)]
    · unfold closing at h
      rw [if_neg hc] at h
      rw [Bool.not_eq_true] at hc
      rw [List.dropWhile_cons_of_pos (by rw [hc]; rfl)] at hrest
      rw [List.takeWhile_cons_of_pos (by rw [hc]; rfl)]
      by_cases hpair : c = 37 ∧ cp.head? = some 37
      · rw [if_pos hpair] at h
        exact nomatch h
      · rw [if_neg hpair] at h
        refine Scans.text (fun hstarts => hpair ?_) (ih (Option.map_eq_none_iff.mp h) hrest)
        obtain ⟨_, _, heq, -⟩ := starts_iff.mp hstarts
        obtain ⟨rfl, rfl⟩ := List.cons.inj heq
        exact ⟨rfl, rfl⟩

theorem flatMap_text (f : Segment → Bytes) (hf : ∀ c, f (.text c) = [c]) (cs : Bytes) :
    (cs.map Segment.text).flatMap f = cs := by
  induction cs with
  | nil => rfl
  | cons c cs ih => rw [List.map_cons, List.flatMap_cons, hf, ih]; rfl

theorem expandFrom_scans {line : Bytes} (hlen : line.length < 2 ^ 31) :
    ∃ segs, Scans line segs ∧ ∀ vars, expandFrom vars 0 line = segs.flatMap (found vars) := by
  induction hn : line.length using Nat.strong_induction_on generalizing line with
  | _ n ih =>
    subst hn
    -- a character that no name starts at
    have htext {c : UInt8} {rest : Bytes} (hstarts : ¬ Starts (c :: rest))
        (heq : ∀ vars, expandFrom vars 0 line = c :: expandFrom vars 0 rest)
        (hline : line = c :: rest) : ∃ segs, Scans line segs ∧
          ∀ vars, expandFrom vars 0 line = segs.flatMap (found vars) := by
      subst hline
      rw [List.length_cons] at hlen
      obtain ⟨segs, hscan, hseg⟩ := ih rest.length (Nat.lt_succ_self _) (by omega) rfl
      refine ⟨.text c :: segs, .text hstarts hscan, fun vars => ?_⟩
      rw [heq, hseg]
      rfl
    have hne {c : UInt8} {rest : Bytes} (hc : c ≠ 37) : ¬ Starts (c :: rest) := fun h => by
      obtain ⟨_, _, heq, -⟩ := starts_iff.mp h
      exact hc (List.cons.inj heq).1
    cases line with
    | nil => exact ⟨[], .nil, fun vars => rfl⟩
    | cons c rest =>
      by_cases hc : c = 37
      · subst hc
        cases rest with
        | nil =>
          refine htext (fun h => ?_) (fun vars => rfl) rfl
          obtain ⟨_, _, heq, -⟩ := starts_iff.mp h
          exact nomatch heq
        | cons d cp =>
          by_cases hd : d = 37
          · subst hd
            cases hclosing : closing cp with
            | none =>
              have hno : ¬ Starts (37 :: 37 :: cp) := fun h => by
                obtain ⟨cp', n, heq, hsome⟩ := starts_iff.mp h
                obtain rfl : cp = cp' := by simpa using heq
                exact nomatch hclosing.symm.trans hsome
              have hno' : ¬ Starts (37 :: cp) := fun h => by
                obtain ⟨cp', n, heq, hsome⟩ := starts_iff.mp h
                obtain rfl : cp = 37 :: cp' := (List.cons.inj heq).2
                unfold closing at hclosing
                rw [if_neg (by decide), hsome] at hclosing
                split at hclosing <;> exact nomatch hclosing
              have hsplit := List.takeWhile_append_dropWhile (p := fun c => !isspace c) (l := cp)
              have hrun : (cp.takeWhile fun c => !isspace c).length < 2 ^ 31 := by
                have hle := congrArg List.length hsplit
                simp only [List.length_append, List.length_cons] at hle hlen
                omega
              obtain ⟨segs, hscan, hseg⟩ := ih (cp.dropWhile fun c => !isspace c).length (by
                have hle := congrArg List.length hsplit
                simp only [List.length_append, List.length_cons] at hle ⊢
                omega) (by
                have hle := congrArg List.length hsplit
                simp only [List.length_append, List.length_cons] at hle hlen
                omega) rfl
              refine ⟨_, .text hno (.text hno' (scans_run hclosing hscan)), fun vars => ?_⟩
              rw [expandFrom.eq_def]
              dsimp only
              rw [if_neg (not_not.mpr rfl), if_neg (not_not.mpr rfl), hclosing]
              dsimp only
              rw [expandFrom_drop, Nat.add_comm, List.drop_succ_cons, printed_eq hrun,
                List.flatMap_cons, List.flatMap_cons, List.flatMap_append,
                flatMap_text _ fun c => rfl, ← hseg]
              generalize (cp.takeWhile fun c => !isspace c) = run at hsplit ⊢
              generalize (cp.dropWhile fun c => !isspace c) = rest at hsplit ⊢
              rw [← hsplit, List.take_left, List.drop_left]
              rfl
            | some len =>
              obtain ⟨name, rest, hname, rfl, rfl⟩ := name_of_closing hclosing
              simp only [List.length_append, List.length_cons] at hlen
              obtain ⟨segs, hscan, hseg⟩ := ih rest.length (by
                simp only [List.length_append, List.length_cons]
                omega) (by omega) rfl
              refine ⟨.name name :: segs, .name hname hscan, fun vars => ?_⟩
              rw [expandFrom.eq_def]
              dsimp only
              rw [if_neg (not_not.mpr rfl), if_neg (not_not.mpr rfl), hclosing]
              dsimp only
              rw [expandFrom_drop, printed_eq (by omega), List.flatMap_cons, ← hseg, List.take_left]
              have htake : (name ++ 37 :: 37 :: rest).take (name.length + 1) = name ++ [37] := by
                rw [List.take_length_add_append]
                rfl
              have hdrop : (37 :: (name ++ 37 :: 37 :: rest)).drop (1 + name.length + 2) = rest := by
                rw [show 1 + name.length + 2 = (name.length + 2) + 1 by omega, List.drop_succ_cons,
                  List.drop_length_add_append]
                rfl
              rw [htake, hdrop, found]
              cases vars.find? (fun kv => name <+: kv.1) with
              | none => simp only [kept, List.cons_append, List.append_assoc, List.nil_append]
              | some kv => rfl
          · refine htext (fun h => ?_) (fun vars => ?_) rfl
            · obtain ⟨_, _, heq, -⟩ := starts_iff.mp h
              exact hd (List.cons.inj (List.cons.inj heq).2).1
            · rw [expandFrom.eq_def, expandFrom.eq_def vars 0 (d :: cp)]
              dsimp only
              rw [if_neg (not_not.mpr rfl), if_pos hd, if_pos hd, expandFrom]
      · refine htext (hne hc) (fun vars => ?_) rfl
        rw [expandFrom.eq_def]
        exact if_pos hc

theorem scans_source {line : Bytes} {segs : List Segment} (h : Scans line segs) :
    segs.flatMap (found []) = line := by
  induction h with
  | nil => rfl
  | name hname hrest ih =>
    rw [List.flatMap_cons, ih]
    simp only [found, List.find?_nil, kept, List.cons_append, List.append_assoc, List.nil_append]
  | text hstarts hrest ih =>
    rw [List.flatMap_cons, ih]
    rfl

theorem expandPlistVariables_scans {line : Bytes} (hlen : line.length < 2 ^ 31) :
    ∃ segs, Scans line segs ∧ ∀ vars, expandPlistVariables vars line = segs.flatMap (found vars) := by
  obtain ⟨segs, hscan, hseg⟩ := expandFrom_scans hlen
  refine ⟨segs, hscan, fun vars => ?_⟩
  unfold expandPlistVariables
  split
  · next hvars => rw [hvars, scans_source hscan]
  · exact hseg vars

/-- A name of the line starts the name of no variable, or the first that it does is its own. -/
def NamesExact (keys : List Bytes) (line : Bytes) : Prop :=
  ∀ segs, Scans line segs → ∀ name, .name name ∈ segs →
    ∀ key, keys.find? (name <+: ·) = some key → key = name

theorem found_name (vars : List (Bytes × Bytes)) (name : Bytes) : found vars (.name name) =
    match vars.find? (fun kv => name <+: kv.1) with
    | some kv => kv.2
    | none => kept name := rfl

theorem expected_name (vars : List (Bytes × Bytes)) (name : Bytes) : expected vars (.name name) =
    match vars.find? (fun kv => kv.1 = name) with
    | some kv => kv.2
    | none => kept name := rfl

section Lookup

variable {vars : List (Bytes × Bytes)} {name : Bytes}

theorem found_eq_expected_of_own {kv : Bytes × Bytes}
    (h : vars.find? (fun kv => name <+: kv.1) = some kv) (hkey : kv.1 = name) :
    found vars (.name name) = expected vars (.name name) := by
  have hown : vars.find? (fun kv => kv.1 = name) = some kv := by
    obtain ⟨-, as, bs, rfl, has⟩ := List.find?_eq_some_iff_append.mp h
    refine List.find?_eq_some_iff_append.mpr ⟨decide_eq_true hkey, as, bs, rfl, fun a ha => ?_⟩
    have hno := has a ha
    rw [Bool.not_eq_true', decide_eq_false_iff_not] at hno ⊢
    rintro rfl
    exact hno (List.prefix_refl _)
  rw [found_name, expected_name, h, hown]

theorem found_eq_expected_of_none (h : vars.find? (fun kv => name <+: kv.1) = none) :
    found vars (.name name) = expected vars (.name name) := by
  have hown : vars.find? (fun kv => kv.1 = name) = none := by
    rw [List.find?_eq_none] at h ⊢
    intro kv hkv heq
    have hkey : kv.1 = name := of_decide_eq_true heq
    exact h kv hkv (decide_eq_true (hkey ▸ List.prefix_refl kv.1))
  rw [found_name, expected_name, h, hown]

end Lookup

theorem found_eq_expected {vars : List (Bytes × Bytes)} {line : Bytes} {segs : List Segment}
    (h : NamesExact (vars.map Prod.fst) line) (hscan : Scans line segs) {seg : Segment}
    (hseg : seg ∈ segs) : found vars seg = expected vars seg := by
  cases seg with
  | text c => rfl
  | name name =>
    cases hf : vars.find? (fun kv => name <+: kv.1) with
    | none => exact found_eq_expected_of_none hf
    | some kv =>
      refine found_eq_expected_of_own hf (h segs hscan name hseg kv.1 ?_)
      rw [List.find?_map]
      exact congrArg (Option.map Prod.fst) hf

/-- The earlier a variable is, the longer is its value, and all are longer than the line. -/
def telling (keys : List Bytes) (line key : Bytes) : Bytes :=
  List.replicate (line.length + (keys.length - keys.idxOf key)) 120

def tellingVars (keys : List Bytes) (line : Bytes) : List (Bytes × Bytes) :=
  keys.map fun key => (key, telling keys line key)

theorem length_telling (keys : List Bytes) (line key : Bytes) :
    (telling keys line key).length = line.length + (keys.length - keys.idxOf key) :=
  List.length_replicate

theorem Scans.length_name {line : Bytes} {segs : List Segment} (h : Scans line segs) {name : Bytes}
    (hname : .name name ∈ segs) : (kept name).length ≤ line.length := by
  induction h with
  | nil => exact absurd hname List.not_mem_nil
  | @name name' rest segs hname' hrest ih =>
    rcases List.mem_cons.mp hname with heq | hname
    · obtain rfl := Segment.name.inj heq
      simp only [kept, List.length_append, List.length_cons, List.length_nil]
      omega
    · have hle := ih hname
      simp only [List.length_append, List.length_cons]
      omega
  | @text c rest segs hstarts hrest ih =>
    rcases List.mem_cons.mp hname with heq | hname
    · exact nomatch heq
    · exact Nat.le_succ_of_le (ih hname)

theorem find?_tellingVars (keys : List Bytes) (line : Bytes) (p : Bytes → Bool) :
    (tellingVars keys line).find? (fun kv => p kv.1) =
      (keys.find? p).map fun key => (key, telling keys line key) := List.find?_map

theorem expected_lt_found {keys : List Bytes} {line name key : Bytes}
    (hlen : (kept name).length ≤ line.length) (h : keys.find? (name <+: ·) = some key)
    (hkey : key ≠ name) : (expected (tellingVars keys line) (.name name)).length <
      (found (tellingVars keys line) (.name name)).length := by
  have hfound := find?_tellingVars keys line (name <+: ·)
  have hexpected := find?_tellingVars keys line (· = name)
  rw [h, Option.map_some] at hfound
  rw [found_name, hfound]
  dsimp only
  rw [length_telling, expected_name, hexpected]
  obtain ⟨hstart, as, bs, hkeys, has⟩ := List.find?_eq_some_iff_append.mp h
  have hnot {k : Bytes} (hk : name <+: k) : k ∉ as := fun hmem => by
    have hno := has k hmem
    rw [Bool.not_eq_true', decide_eq_false_iff_not] at hno
    exact hno hk
  have hidx : keys.idxOf key = as.length := by
    rw [hkeys, List.idxOf_append_of_notMem (hnot (of_decide_eq_true hstart)), List.idxOf_cons_self]
    rfl
  have hlt : as.length < keys.length := by
    rw [hkeys, List.length_append, List.length_cons]
    omega
  rw [hidx]
  cases hown : keys.find? (· = name) with
  | none =>
    show (kept name).length < _
    omega
  | some k =>
    obtain ⟨hdec, -⟩ := List.find?_eq_some_iff_append.mp hown
    obtain rfl : k = name := of_decide_eq_true hdec
    show (telling keys line k).length < _
    have hidx' : as.length < keys.idxOf k := by
      rw [hkeys, List.idxOf_append_of_notMem (hnot (List.prefix_refl k)), List.idxOf_cons_ne _ hkey]
      omega
    rw [length_telling]
    omega

theorem expected_le_found {keys : List Bytes} {line : Bytes} {segs : List Segment}
    (hscan : Scans line segs) {seg : Segment} (hseg : seg ∈ segs) :
    (expected (tellingVars keys line) seg).length ≤ (found (tellingVars keys line) seg).length := by
  cases seg with
  | text c => exact Nat.le_refl _
  | name name =>
    have hfound := find?_tellingVars keys line (name <+: ·)
    cases h : keys.find? (name <+: ·) with
    | none =>
      rw [h] at hfound
      rw [found_eq_expected_of_none hfound]
    | some key =>
      by_cases hkey : key = name
      · rw [h] at hfound
        rw [found_eq_expected_of_own hfound hkey]
      · exact Nat.le_of_lt (expected_lt_found (hscan.length_name hseg) h hkey)

theorem length_flatMap_lt {f g : Segment → Bytes} {segs : List Segment} {seg : Segment}
    (hle : ∀ seg ∈ segs, (g seg).length ≤ (f seg).length) (hseg : seg ∈ segs)
    (hlt : (g seg).length < (f seg).length) :
    (segs.flatMap g).length < (segs.flatMap f).length := by
  rw [List.length_flatMap, List.length_flatMap]
  exact List.sum_lt_sum _ _ hle ⟨seg, hseg, hlt⟩

/-- Short of two gigabytes, a line is expanded right, whatever the values of the variables are, just
when a variable's name is found whole. -/
theorem expandPlistVariables_iff {line : Bytes} (hlen : line.length < 2 ^ 31) (keys : List Bytes) :
    (∀ vars, vars.map Prod.fst = keys → Expanded vars line (expandPlistVariables vars line)) ↔
      NamesExact keys line := by
  obtain ⟨segs, hscan, hout⟩ := expandPlistVariables_scans hlen
  constructor
  · intro h segs' hscan' name hname key hfind
    obtain rfl := hscan.unique hscan'
    by_contra hkey
    obtain ⟨segs', hscan', heq⟩ := h (tellingVars keys line) (by
      rw [tellingVars, List.map_map]
      exact List.map_id keys)
    obtain rfl := hscan.unique hscan'
    rw [hout] at heq
    refine Nat.ne_of_lt ?_ (congrArg List.length heq).symm
    exact length_flatMap_lt (fun seg hseg => expected_le_found hscan hseg) hname
      (expected_lt_found (hscan.length_name hname) hfind hkey)
  · rintro h vars rfl
    refine ⟨segs, hscan, ?_⟩
    rw [hout]
    exact List.flatMap_congr fun seg hseg => found_eq_expected h hscan hseg

theorem isName_th : IsName [116, 104] :=
  { solid := List.forall_mem_cons.mpr ⟨rfl, List.forall_mem_cons.mpr ⟨rfl, nofun⟩⟩
    first := by decide }

theorem scans_th : Scans [37, 37, 116, 104, 37, 37] [.name [116, 104]] := .name isName_th .nil

theorem expandPlistVariables_th :
    (∀ vars, vars.map Prod.fst = [[120]] →
      Expanded vars [37, 37, 116, 104, 37, 37]
        (expandPlistVariables vars [37, 37, 116, 104, 37, 37])) ↔
      NamesExact [[120]] [37, 37, 116, 104, 37, 37] :=
  expandPlistVariables_iff (by decide) [[120]]

/-- The name `th` is replaced by the value `v` of `this`. -/
theorem not_expanded_prefix :
    ¬ Expanded [([116, 104, 105, 115], [118])] [37, 37, 116, 104, 37, 37]
      (expandPlistVariables [([116, 104, 105, 115], [118])] [37, 37, 116, 104, 37, 37]) := by
  rintro ⟨segs, hscan, hout⟩
  obtain rfl := hscan.unique scans_th
  exact absurd hout (by decide)

end NextBSD.Libpkg.Ports
