import NextBSD.Libpkg.Ports.Plist

/-!
# Substitution in the body of a loop

`forloop_substitute_var` replaces the occurrences of the name in a body whose lines are clean, and
nothing else of it changes.
-/

namespace NextBSD.Libpkg.Ports

open Manifest (Bytes ascii)
open TextLines

theorem findPair_append {cp : Bytes} {n : Nat} (h : findPair cp = some n) (rest : Bytes) :
    findPair (cp ++ rest) = some n := by
  induction cp generalizing n with
  | nil => exact nomatch h
  | cons c cp ih =>
    unfold findPair at h
    rw [List.cons_append]
    unfold findPair
    by_cases hpair : c = 37 ∧ cp.head? = some 37
    · rw [if_pos hpair] at h
      have hhead : (cp ++ rest).head? = some 37 := by
        cases cp with
        | nil => exact nomatch hpair.2
        | cons d cp => exact hpair.2
      rw [if_pos ⟨hpair.1, hhead⟩, h]
    · rw [if_neg hpair] at h
      cases hcp : findPair cp with
      | none =>
        rw [hcp] at h
        exact nomatch h
      | some m =>
        have hne : ¬ (c = 37 ∧ (cp ++ rest).head? = some 37) := by
          cases cp with
          | nil => exact nomatch hcp
          | cons d cp => exact hpair
        rw [hcp] at h
        rw [if_neg hne, ih hcp, ← h]

theorem exactMatch_append {varname cp : Bytes} (h : exactMatch varname cp = true) (rest : Bytes) :
    exactMatch varname (cp ++ rest) = true := by
  unfold exactMatch at *
  rw [Bool.and_eq_true, decide_eq_true_eq, decide_eq_true_eq] at *
  exact ⟨findPair_append h.1 rest, h.2.trans (List.prefix_append cp rest)⟩

theorem findPair_spec {cp : Bytes} {n : Nat} (h : findPair cp = some n) :
    ∃ name rest, cp = name ++ 37 :: 37 :: rest ∧ name.length = n := by
  induction cp generalizing n with
  | nil => exact nomatch h
  | cons c cp ih =>
    unfold findPair at h
    by_cases hpair : c = 37 ∧ cp.head? = some 37
    · rw [if_pos hpair] at h
      obtain ⟨rfl, hhead⟩ := hpair
      obtain ⟨rest, rfl⟩ := List.head?_eq_some_iff.mp hhead
      exact ⟨[], rest, rfl, Option.some.inj h⟩
    · rw [if_neg hpair] at h
      cases hcp : findPair cp with
      | none =>
        rw [hcp] at h
        exact nomatch h
      | some m =>
        rw [hcp] at h
        obtain ⟨name, rest, rfl, hlen⟩ := ih hcp
        refine ⟨c :: name, rest, rfl, ?_⟩
        rw [List.length_cons, hlen]
        exact Option.some.inj h

theorem prefix_of_exactMatch {varname cp : Bytes} (h : exactMatch varname cp = true) :
    ∃ rest, cp = varname ++ 37 :: 37 :: rest := by
  unfold exactMatch at h
  rw [Bool.and_eq_true, decide_eq_true_eq, decide_eq_true_eq] at h
  obtain ⟨name, rest, hcp, hlen⟩ := findPair_spec h.1
  refine ⟨rest, ?_⟩
  have hname : name <+: cp := ⟨37 :: 37 :: rest, hcp.symm⟩
  have hsame : varname = name :=
    (List.prefix_of_prefix_length_le h.2 hname (by omega)).eq_of_length hlen.symm
  rw [hsame, ← hcp]

theorem pair_of_occurrence {varname rest : Bytes} {c : UInt8}
    (h : occurrence varname <+: c :: rest) : c = 37 ∧ rest.head? = some 37 := by
  obtain ⟨after, happend⟩ := h
  have hcons := List.cons.inj happend
  refine ⟨hcons.1.symm, ?_⟩
  rw [← hcons.2]
  rfl

/-! ## A line and a body -/

theorem substituteFrom_zero_cons (varname varval : Bytes) (c : UInt8) (rest : Bytes) :
    substituteFrom varname varval 0 (c :: rest) =
      if c = 37 ∧ rest.head? = some 37 then
        if exactMatch varname rest.tail then
          (substituteFrom varname varval (1 + varname.length + 2) rest).map (varval ++ ·)
        else
          match rest.tail.head? with
          | none => none
          | some d => (substituteFrom varname varval 2 rest).map (d :: ·)
      else (substituteFrom varname varval 0 rest).map (c :: ·) := by
  refine (substituteFrom.eq_def varname varval 0 (c :: rest)).trans ?_
  rfl

theorem substituteFrom_clean (varname varval rest : Bytes) {line : Bytes} {n : Nat}
    (hn : n ≤ line.length) (h : cleanFrom varname n line = true) :
    substituteFrom varname varval n (line ++ 10 :: rest) =
      (substituteFrom varname varval 0 rest).map
        (fun t => replaceFrom (occurrence varname) varval n line ++ 10 :: t) := by
  induction line generalizing n with
  | nil =>
    have hzero : n = 0 := Nat.le_zero.mp hn
    subst hzero
    rw [List.nil_append, substituteFrom_zero_cons, if_neg (fun hpair => absurd hpair.1 (by decide))]
    rfl
  | cons c line ih =>
    cases n with
    | succ n =>
      exact ih (Nat.le_of_succ_le_succ hn) h
    | zero =>
      unfold cleanFrom at h
      rw [List.cons_append, substituteFrom_zero_cons, replaceFrom_zero_cons]
      by_cases hpair : c = 37 ∧ line.head? = some 37
      · rw [if_pos hpair, Bool.and_eq_true] at h
        obtain ⟨rfl, hhead⟩ := hpair
        obtain ⟨cp, rfl⟩ := List.head?_eq_some_iff.mp hhead
        obtain ⟨after, hcp⟩ := prefix_of_exactMatch h.1
        have hcp : cp = varname ++ 37 :: 37 :: after := hcp
        have hlen : 1 + varname.length + 2 ≤ (37 :: cp).length := by
          rw [hcp, List.length_cons, List.length_append, List.length_cons, List.length_cons]
          omega
        have hmatch : exactMatch varname ((37 :: cp) ++ 10 :: rest).tail = true :=
          exactMatch_append h.1 (10 :: rest)
        have hword : occurrence varname <+: 37 :: 37 :: cp := by
          refine ⟨after, ?_⟩
          unfold occurrence
          rw [hcp, List.cons_append, List.cons_append, List.append_assoc]
          rfl
        have hskip : (occurrence varname).length - 1 = 1 + varname.length + 2 := by
          unfold occurrence
          rw [List.length_cons, List.length_cons, List.length_append]
          show varname.length + 2 + 1 + 1 - 1 = _
          omega
        rw [if_pos ⟨rfl, rfl⟩, if_pos hmatch, if_pos hword, hskip, ih hlen h.2, Option.map_map]
        congr 1
        funext t
        exact (List.append_assoc _ _ _).symm
      · rw [if_neg hpair] at h
        have hnotpair : ¬ (c = 37 ∧ (line ++ 10 :: rest).head? = some 37) := by
          cases line with
          | nil => exact fun hp => absurd (Option.some.inj hp.2) (by decide)
          | cons d line => exact hpair
        rw [if_neg hnotpair, if_neg (fun hword => hpair (pair_of_occurrence hword)),
          ih (Nat.zero_le _) h, Option.map_map]
        rfl

theorem forloopSubstituteVar_joinLines (varname varval : Bytes) {lines : List Bytes}
    (h : ∀ l ∈ lines, cleanFrom varname 0 l = true) :
    forloopSubstituteVar varname varval (TextLines.joinLines 10 lines) =
      some (TextLines.joinLines 10 (lines.map (replace (occurrence varname) varval))) := by
  induction lines with
  | nil => rfl
  | cons l lines ih =>
    have htail := ih (fun l hl => h l (List.mem_cons_of_mem _ hl))
    unfold forloopSubstituteVar at *
    rw [TextLines.joinLines_cons, substituteFrom_clean varname varval _ (Nat.zero_le _)
      (h l List.mem_cons_self), htail, List.map_cons, TextLines.joinLines_cons]
    rfl

theorem isspace_of_mem_cutValues {line word : Bytes} (h : word ∈ cutValues line) {c : UInt8}
    (hc : c ∈ word) : isspace c = false := by
  induction line generalizing word with
  | nil => exact absurd h List.not_mem_nil
  | cons b rest ih =>
    unfold cutValues at h
    by_cases hb : isspace b = true
    · rw [if_pos hb] at h
      exact ih h hc
    rw [if_neg hb] at h
    have hb : isspace b = false := Bool.eq_false_iff.mpr hb
    cases rest with
    | nil =>
      rw [List.mem_singleton.mp h] at hc
      rw [List.mem_singleton.mp hc]
      exact hb
    | cons d rest =>
      dsimp only at h
      by_cases hd : isspace d = true
      · rw [if_pos hd] at h
        cases List.mem_cons.mp h with
        | inl hword =>
          rw [hword] at hc
          rw [List.mem_singleton.mp hc]
          exact hb
        | inr hword => exact ih hword hc
      · rw [if_neg hd] at h
        cases hcut : cutValues (d :: rest) with
        | nil =>
          rw [hcut] at h
          rw [List.mem_singleton.mp h] at hc
          rw [List.mem_singleton.mp hc]
          exact hb
        | cons first words =>
          rw [hcut] at h ih
          cases List.mem_cons.mp h with
          | inl hword =>
            rw [hword] at hc
            cases List.mem_cons.mp hc with
            | inl hcb =>
              rw [hcb]
              exact hb
            | inr hmem => exact ih List.mem_cons_self hmem
          | inr hword => exact ih (List.mem_cons_of_mem _ hword) hc

theorem newline_not_mem_of_forHeader {line var : Bytes} {values : List Bytes}
    (h : forHeader line = some (var, values)) {value : Bytes} (hvalue : value ∈ values) :
    10 ∉ value := by
  unfold forHeader at h
  dsimp only at h
  split_ifs at h
  have hvalues := (Prod.mk.inj (Option.some.inj h)).2
  rw [← hvalues] at hvalue
  intro hmem
  exact absurd (isspace_of_mem_cutValues hvalue hmem) (by decide)

theorem newline_not_mem_replace {word value text : Bytes} (hvalue : 10 ∉ value)
    (htext : 10 ∉ text) : 10 ∉ replace word value text := fun hmem =>
  (mem_replaceFrom hmem).elim hvalue htext

theorem isSkipped_iff {line : Bytes} : isSkipped line = true ↔ line = [] ∨ line.head? = some 35 := by
  unfold isSkipped
  rw [Bool.or_eq_true, decide_eq_true_eq, decide_eq_true_eq, List.head?_eq_none_iff]

theorem isSkipped_replace {line : Bytes} (varname value : Bytes) (h : isSkipped line = true) :
    isSkipped (replace (occurrence varname) value line) = true := by
  cases isSkipped_iff.mp h with
  | inl hnil =>
    rw [hnil]
    rfl
  | inr hhead =>
    obtain ⟨rest, rfl⟩ := List.head?_eq_some_iff.mp hhead
    unfold replace
    rw [replaceFrom_zero_cons, if_neg (fun hword => absurd (pair_of_occurrence hword).1 (by decide))]
    rfl

theorem isSkipped_substLine (subst : List (Bytes × Bytes)) {line : Bytes}
    (h : isSkipped line = true) : isSkipped (substLine subst line) = true := by
  unfold substLine
  induction subst generalizing line with
  | nil => exact h
  | cons s subst ih => exact ih (isSkipped_replace s.1 s.2 h)

theorem expandFrom_of_ne (vars : List (Bytes × Bytes)) {c : UInt8} (h : c ≠ 37) (rest : Bytes) :
    expandFrom vars 0 (c :: rest) = c :: expandFrom vars 0 rest := by
  rw [expandFrom.eq_def]
  exact if_pos h

theorem isSkipped_expand (vars : List (Bytes × Bytes)) {line : Bytes} (h : isSkipped line = true) :
    isSkipped (expandPlistVariables vars line) = true := by
  unfold expandPlistVariables
  split_ifs
  · exact h
  · cases isSkipped_iff.mp h with
    | inl hnil =>
      rw [hnil]
      rfl
    | inr hhead =>
      obtain ⟨rest, rfl⟩ := List.head?_eq_some_iff.mp hhead
      rw [expandFrom_of_ne vars (by decide)]
      rfl

theorem substAction_skipped (sys : System) (subst : List (Bytes × Bytes)) {line : Bytes}
    (u : Unrolled) (h : isSkipped line = true) : substAction sys subst line u = .skip := by
  unfold substAction lineAction
  rw [if_pos (isSkipped_expand _ (isSkipped_substLine subst h))]

end NextBSD.Libpkg.Ports
