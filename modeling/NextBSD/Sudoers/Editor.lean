import NextBSD.Sudoers.ShellArgs

/-!
# editor.c: the command line of an editor

The editor comes from a variable, or from one element of the `editor` setting of sudoers.  It is
split into words in place: a word is a part of the string, which need not end behind the element.
-/

namespace NextBSD.Sudoers.Editor

open Iolog (Bytes)
open ShellArgs (CString)

/-! ## Words

A pointer into the region is what lies between it and `endstr`; `stop` is the byte at `endstr`. -/

def isBlank (c : UInt8) : Bool := c = 32 || c = 9

def isQuote (c : UInt8) : Bool := c = 34 || c = 39

/-- The loop around `memchr`, with the byte in front of the place it is at: the text up to the end
quote, and the region from there on. -/
def endquote (q : UInt8) : UInt8 → Bytes → Option (Bytes × Bytes)
  | _, [] => none
  | prev, c :: cp =>
    if c = q ∧ prev ≠ 92 then some ([], c :: cp)
    else (endquote q c cp).map fun found => (c :: found.1, found.2)

/-- The scan up to white space.  At the end of the region a backslash takes the byte behind it. -/
def scan (stop : UInt8) : Bytes → Bytes × Bytes
  | [] => ([], [])
  | [c] =>
    if c = 92 ∧ stop ≠ 0 then ([c, stop], [])
    else if isBlank c then ([], [c])
    else ([c], [])
  | c :: d :: cp =>
    if c = 92 ∧ d ≠ 0 then
      let (word, last) := scan stop cp
      (c :: d :: word, last)
    else if isBlank c then ([], c :: d :: cp)
    else
      let (word, last) := scan stop (d :: cp)
      (c :: word, last)

def wordsplit (stop : UInt8) (str : Bytes) : Option (Bytes × Bytes) :=
  match str.dropWhile isBlank with
  | [] => none
  | c :: cp =>
    if isQuote c then
      match endquote c c cp with
      | some found => some found
      | none => some (scan stop (c :: cp))
    else some (scan stop (c :: cp))

def skipQuote : Bytes → Bytes
  | [] => []
  | c :: str => if isQuote c then str else c :: str

/-- `copy_arg`, for a word and the byte behind it. -/
def copyArg (behind : UInt8) : Bytes → Bytes
  | [] => []
  | [c] => if c = 92 ∧ behind ≠ 0 then [behind] else [c]
  | c :: d :: src => if c = 92 ∧ d ≠ 0 then d :: copyArg behind src else c :: copyArg behind (d :: src)

def dashes : Bytes := [45, 45]

/-- The loop that counts; the first number bounds its rounds. -/
def countWords (stop : UInt8) : Nat → Bytes → Nat
  | 0, _ => 0
  | n + 1, last =>
    match wordsplit stop (skipQuote last) with
    | none => 0
    | some (_, last) => countWords stop n last + 1

/-- The loop that copies; `none` where an argument is `--`. -/
def copyWords (stop : UInt8) : Nat → Bytes → Option (List Bytes)
  | 0, _ => some []
  | n + 1, last =>
    match wordsplit stop (skipQuote last) with
    | none => some []
    | some (word, last) =>
      let arg := copyArg (last.headD stop) word
      if arg = dashes then none else (copyWords stop n last).map (arg :: ·)

structure Candidate where
  region : Bytes
  stop : UInt8
  deriving DecidableEq, Repr

inductive Resolved where
  -- no word: `errno` is left alone
  | blank
  -- `ENOENT`
  | notFound
  -- `EINVAL`
  | refused
  | found (path : Bytes) (argv : List Bytes) (slots : Nat)
  deriving DecidableEq, Repr

section
variable (findPath : Bytes → Option Bytes) (files : List Bytes)

/-- `resolve_editor`, with the number of slots that it has counted. -/
def resolveEditor (ed : Candidate) : Resolved :=
  match wordsplit ed.stop ed.region with
  | none => .blank
  | some (word, last) =>
    let editor := copyArg (last.headD ed.stop) word
    match findPath editor with
    | none => .notFound
    | some path =>
      let nargc := 1 + countWords ed.stop ed.region.length last
      let nargc := if files = [] then nargc else nargc + (files.length + 1)
      match copyWords ed.stop ed.region.length last with
      | none => .refused
      | some args =>
        .found path (editor :: args ++ if files = [] then [] else dashes :: files) nargc

/-- Both loops of `find_editor`: the search ends at an editor, and at an error other than
`ENOENT`. -/
def tryEach : List Candidate → Bool → Option (Bytes × List Bytes × Nat)
  | [], _ => none
  | ed :: eds, enoent =>
    match resolveEditor findPath files ed with
    | .found path argv slots => some (path, argv, slots)
    | .refused => none
    | .notFound => tryEach eds true
    | .blank => if enoent then tryEach eds enoent else none

end

/-- The elements that `sudo_strsplit` finds. -/
def elements : Nat → Bytes → List Candidate
  | 0, _ => []
  | n + 1, str =>
    match str.dropWhile (· = 58) with
    | [] => []
    | c :: cp =>
      let last := (c :: cp).dropWhile (· ≠ 58)
      { region := (c :: cp).takeWhile (· ≠ 58), stop := last.headD 0 } :: elements n last

/-- The variables that are set and not empty, and then the elements of the setting. -/
def candidates (env : List (Option CString)) (defEditor : CString) : List Candidate :=
  (env.filterMap fun value =>
    value.bind fun value =>
      if value.bytes = [] then none else some { region := value.bytes, stop := 0 }) ++
    elements defEditor.bytes.length defEditor.bytes

/-- `find_editor`, for the values of `SUDO_EDITOR`, `VISUAL` and `EDITOR`. -/
def findEditor (findPath : Bytes → Option Bytes) (files : List Bytes) (sudoEditor visual editor :
    Option CString) (defEditor : CString) (enoent : Bool) : Option (Bytes × List Bytes × Nat) :=
  tryEach findPath files (candidates [sudoEditor, visual, editor] defEditor) enoent

/-- The text before the first such quote that has no backslash in front, and what is behind it. -/
def quoted (q : UInt8) : UInt8 → Bytes → Option (Bytes × Bytes)
  | _, [] => none
  | prev, c :: s =>
    if c = q ∧ prev ≠ 92 then some ([], s)
    else (quoted q c s).map fun found => (c :: found.1, found.2)

def unquoted : Bytes → Bytes × Bytes
  | [] => ([], [])
  | [c] => if isBlank c then ([], [c]) else ([c], [])
  | c :: d :: s =>
    if c = 92 then (c :: d :: (unquoted s).1, (unquoted s).2)
    else if isBlank c then ([], c :: d :: s)
    else (c :: (unquoted (d :: s)).1, (unquoted (d :: s)).2)

def removeEscapes : Bytes → Bytes
  | [] => []
  | [c] => [c]
  | c :: d :: s => if c = 92 then d :: removeEscapes s else c :: removeEscapes (d :: s)

def nextWord (s : Bytes) : Option (Bytes × Bytes) :=
  match s.dropWhile isBlank with
  | [] => none
  | c :: s => some (((if isQuote c then some c else none).bind fun q => quoted q q s).getD
      (unquoted (c :: s)))

def words : Nat → Bytes → List Bytes
  | 0, _ => []
  | n + 1, s =>
    match nextWord s with
    | none => []
    | some (word, rest) => removeEscapes word :: words n rest

/-- The vector is made of the words of the candidate, `--` and the files. -/
structure Built (ed : Candidate) (files argv : List Bytes) (slots : Nat) : Prop where
  words : ∀ n, ed.region.length < n → argv = words n ed.region ++ dashes :: files
  counted : slots = argv.length
  separator : ∀ n, ed.region.length < n → dashes ∉ Editor.words n ed.region

def dangling : Bytes → Bool
  | [] => false
  | [c] => c = 92
  | c :: d :: s => if c = 92 then dangling s else dangling (d :: s)

/-- The last backslash takes the byte behind the candidate. -/
def overruns (ed : Candidate) : Prop := ed.stop ≠ 0 ∧ dangling ed.region = true

theorem dangling_cons {c : UInt8} (hc : c ≠ 92) (s : Bytes) : dangling (c :: s) = dangling s := by
  cases s with
  | nil => exact decide_eq_false hc
  | cons d s => rw [dangling, if_neg hc]

theorem dangling_append {x : Bytes} (h : x.getLast? ≠ some 92) (y : Bytes) :
    dangling (x ++ y) = dangling y := by
  induction x using dangling.induct with
  | case1 => rfl
  | case2 c =>
    refine dangling_cons ?_ y
    rintro rfl
    exact h rfl
  | case3 d s ih =>
    refine ih fun hlast => h ?_
    rw [List.getLast?_cons_cons]
    cases s with
    | nil => cases hlast
    | cons e s => rw [List.getLast?_cons_cons, hlast]
  | case4 c d s hc ih =>
    rw [List.cons_append, dangling_cons hc]
    exact ih h

theorem not_dangling {x : Bytes} (h : x.getLast? ≠ some 92) : dangling x = false := by
  have hnil := dangling_append h []
  rw [List.append_nil] at hnil
  exact hnil

theorem copyArg_eq {behind : UInt8} {w : Bytes} (hw : 0 ∉ w)
    (h : behind = 0 ∨ dangling w = false) : copyArg behind w = removeEscapes w := by
  induction w using removeEscapes.induct with
  | case1 => rfl
  | case2 c =>
    refine if_neg fun hc => ?_
    obtain rfl | hdangling := h
    · exact hc.2 rfl
    · exact of_decide_eq_false hdangling hc.1
  | case3 d s ih =>
    have hd : d ≠ 0 := fun heq => hw (by simp [heq])
    rw [copyArg, if_pos ⟨rfl, hd⟩, ih (fun hmem => hw (by simp [hmem])) h]
    rfl
  | case4 c d s hc ih =>
    rw [dangling_cons hc] at h
    rw [copyArg, if_neg fun hboth => hc hboth.1, removeEscapes, if_neg hc,
      ih (fun hmem => hw (List.mem_cons_of_mem c hmem)) h]

theorem copyArg_dangling {s : Bytes} (h : dangling s = true) {stop : UInt8} (hstop : stop ≠ 0)
    (hs : 0 ∉ s) : ∃ front, removeEscapes s = front ++ [92] ∧
      ∀ behind, copyArg behind (s ++ [stop]) = front ++ [stop] := by
  induction s using removeEscapes.induct with
  | case1 => cases h
  | case2 c =>
    obtain rfl : c = 92 := of_decide_eq_true h
    exact ⟨[], rfl, fun behind => if_pos ⟨rfl, hstop⟩⟩
  | case3 d s ih =>
    have hd : d ≠ 0 := fun heq => hs (by simp [heq])
    obtain ⟨front, hremove, hcopy⟩ := ih h fun hmem => hs (by simp [hmem])
    refine ⟨d :: front, congrArg (d :: ·) hremove, fun behind => ?_⟩
    rw [List.cons_append, List.cons_append, copyArg, if_pos ⟨rfl, hd⟩, hcopy]
    rfl
  | case4 c d s hc ih =>
    rw [dangling_cons hc] at h
    obtain ⟨front, hremove, hcopy⟩ := ih h fun hmem => hs (List.mem_cons_of_mem c hmem)
    refine ⟨c :: front, ?_, fun behind => ?_⟩
    · rw [removeEscapes, if_neg hc, hremove]
      rfl
    · rw [List.cons_append, List.cons_append, copyArg, if_neg fun hboth => hc hboth.1,
        ← List.cons_append, hcopy]
      rfl

theorem unquoted_cases (s : Bytes) :
    unquoted s = (s, []) ∨
      ∃ word c rest, unquoted s = (word, c :: rest) ∧ isBlank c = true ∧ s = word ++ c :: rest ∧
        dangling word = false ∧ dangling s = dangling rest ∧
        ∀ stop, 0 ∉ s → scan stop s = (word, c :: rest) := by
  induction s using unquoted.induct with
  | case1 => exact .inl rfl
  | case2 c hc =>
    refine .inr ⟨[], c, [], if_pos hc, hc, rfl, rfl, ?_, fun stop _ => ?_⟩
    · exact dangling_cons (by rintro rfl; cases hc) []
    · rw [scan, if_neg (fun hboth => by rw [hboth.1] at hc; cases hc), if_pos hc]
  | case3 c hc => exact .inl (if_neg hc)
  | case4 d s ih =>
    obtain hall | ⟨word, c, rest, hword, hc, hs, hcomplete, hdangling, hscan⟩ := ih
    · refine .inl ?_
      rw [unquoted, if_pos rfl, hall]
    · refine .inr ⟨92 :: d :: word, c, rest, ?_, hc, ?_, hcomplete, hdangling, fun stop hzero => ?_⟩
      · rw [unquoted, if_pos rfl, hword]
      · rw [hs]
        rfl
      · have hd : d ≠ 0 := fun heq => hzero (by simp [heq])
        rw [scan, if_pos ⟨rfl, hd⟩, hscan stop fun hmem => hzero (by simp [hmem])]
  | case5 c d s hne hc =>
    refine .inr ⟨[], c, d :: s, ?_, hc, rfl, rfl, dangling_cons hne _, fun stop _ => ?_⟩
    · rw [unquoted, if_neg hne, if_pos hc]
    · rw [scan, if_neg fun hboth => hne hboth.1, if_pos hc]
  | case6 c d s hne hc ih =>
    obtain hall | ⟨word, e, rest, hword, he, hs, hcomplete, hdangling, hscan⟩ := ih
    · refine .inl ?_
      rw [unquoted, if_neg hne, if_neg hc, hall]
    · refine .inr ⟨c :: word, e, rest, ?_, he, ?_, ?_, ?_, fun stop hzero => ?_⟩
      · rw [unquoted, if_neg hne, if_neg hc, hword]
      · rw [hs]
        rfl
      · rw [dangling_cons hne, hcomplete]
      · rw [dangling_cons hne, hdangling]
      · rw [scan, if_neg fun hboth => hne hboth.1, if_neg hc,
          hscan stop fun hmem => hzero (List.mem_cons_of_mem c hmem)]

theorem scan_all {s : Bytes} (h : unquoted s = (s, [])) (hs : 0 ∉ s) (stop : UInt8) :
    scan stop s = (if stop ≠ 0 ∧ dangling s = true then s ++ [stop] else s, []) := by
  induction s using unquoted.induct with
  | case1 =>
    rw [if_neg fun hboth => by cases hboth.2]
    rfl
  | case2 c hc =>
    rw [unquoted, if_pos hc] at h
    cases h
  | case3 c hc =>
    by_cases hboth : c = 92 ∧ stop ≠ 0
    · rw [scan, if_pos hboth, if_pos ⟨hboth.2, decide_eq_true hboth.1⟩]
      rfl
    · rw [scan, if_neg hboth, if_neg hc, if_neg]
      exact fun hboth' => hboth ⟨of_decide_eq_true hboth'.2, hboth'.1⟩
  | case4 d s ih =>
    have hd : d ≠ 0 := fun heq => hs (by simp [heq])
    rw [unquoted, if_pos rfl] at h
    have hall : unquoted s = (s, []) :=
      Prod.ext (List.cons.inj (List.cons.inj (congrArg Prod.fst h)).2).2 (congrArg Prod.snd h :)
    rw [scan, if_pos ⟨rfl, hd⟩, ih hall fun hmem => hs (by simp [hmem]), dangling, if_pos rfl]
    dsimp only
    split <;> rfl
  | case5 c d s hne hc =>
    rw [unquoted, if_neg hne, if_pos hc] at h
    cases h
  | case6 c d s hne hc ih =>
    rw [unquoted, if_neg hne, if_neg hc] at h
    have hall : unquoted (d :: s) = (d :: s, []) :=
      Prod.ext (List.cons.inj (congrArg Prod.fst h)).2 (congrArg Prod.snd h :)
    rw [scan, if_neg fun hboth => hne hboth.1, if_neg hc,
      ih hall fun hmem => hs (List.mem_cons_of_mem c hmem), dangling_cons hne]
    dsimp only
    split <;> rfl

theorem endquote_eq (q prev : UInt8) (s : Bytes) :
    endquote q prev s = (quoted q prev s).map fun found => (found.1, q :: found.2) := by
  induction s generalizing prev with
  | nil => rfl
  | cons c s ih =>
    rw [endquote, quoted]
    by_cases hc : c = q ∧ prev ≠ 92
    · rw [if_pos hc, if_pos hc, hc.1]
      rfl
    · rw [if_neg hc, if_neg hc, ih, Option.map_map, Option.map_map]
      rfl

theorem quoted_some {q prev : UInt8} {s text rest : Bytes}
    (h : quoted q prev s = some (text, rest)) :
    s = text ++ q :: rest ∧ (prev :: text).getLast? ≠ some 92 := by
  induction s generalizing prev text with
  | nil => cases h
  | cons c s ih =>
    rw [quoted] at h
    split at h
    · next hc =>
      cases h
      refine ⟨by rw [hc.1]; rfl, fun hlast => hc.2 ?_⟩
      exact Option.some.inj hlast
    · obtain ⟨⟨text', rest'⟩, hquoted, heq⟩ := Option.map_eq_some_iff.mp h
      cases heq
      obtain ⟨hs, hlast⟩ := ih hquoted
      refine ⟨by rw [hs]; rfl, ?_⟩
      rw [List.getLast?_cons_cons]
      exact hlast

/-! ## One word of the code -/

structure Complete (stop : UInt8) (s word rest last : Bytes) : Prop where
  next : nextWord s = some (word, rest)
  split : wordsplit stop s = some (word, last)
  skip : skipQuote last = rest
  copy : copyArg (last.headD stop) word = removeEscapes word
  shorter : rest.length < s.length
  dangling : stop ≠ 0 → dangling s = dangling rest
  clean : 0 ∉ rest

structure Overrun (stop : UInt8) (s word : Bytes) : Prop where
  next : nextWord s = some (word, [])
  split : wordsplit stop s = some (word ++ [stop], [])
  dangling : dangling word = true
  stop : stop ≠ 0
  region : Editor.dangling s = true
  clean : 0 ∉ word

theorem dangling_dropWhile (s : Bytes) : dangling (s.dropWhile isBlank) = dangling s := by
  induction s with
  | nil => rfl
  | cons c s ih =>
    by_cases hc : isBlank c = true
    · rw [List.dropWhile_cons_of_pos hc, ih, dangling_cons]
      rintro rfl
      cases hc
    · rw [List.dropWhile_cons_of_neg hc]

theorem wordsplit_cases (stop : UInt8) {s : Bytes} (hs : 0 ∉ s) :
    (nextWord s = none ∧ wordsplit stop s = none ∧ dangling s = false) ∨
      (∃ word rest last, Complete stop s word rest last) ∨ ∃ word, Overrun stop s word := by
  have hdangling := dangling_dropWhile s
  have hclean : 0 ∉ s.dropWhile isBlank := fun hmem => hs (List.dropWhile_sublist _ |>.mem hmem)
  have hlength := (List.dropWhile_sublist isBlank (l := s)).length_le
  cases hdrop : s.dropWhile isBlank with
  | nil =>
    rw [hdrop] at hdangling
    exact .inl ⟨by rw [nextWord, hdrop], by rw [wordsplit, hdrop], hdangling.symm⟩
  | cons c t =>
    refine .inr ?_
    rw [hdrop] at hdangling hclean hlength
    cases hquoted : (if isQuote c then some c else none).bind fun q => quoted q q t with
    | some found =>
      obtain ⟨text, rest⟩ := found
      have hc : isQuote c = true := by
        by_contra hc
        rw [if_neg hc] at hquoted
        cases hquoted
      have hnext : nextWord s = some (text, rest) := by
        rw [nextWord, hdrop]
        dsimp only
        rw [hquoted]
        rfl
      rw [if_pos hc, Option.bind_some] at hquoted
      have hsplit : wordsplit stop s = some (text, c :: rest) := by
        rw [wordsplit, hdrop]
        dsimp only
        rw [if_pos hc, endquote_eq, hquoted]
        rfl
      have hne : c ≠ 92 := by
        rintro rfl
        cases hc
      obtain ⟨rfl, hlast⟩ := quoted_some hquoted
      have htext : text.getLast? ≠ some 92 := by
        cases text with
        | nil => exact fun h => by cases h
        | cons d text =>
          rw [List.getLast?_cons_cons] at hlast
          exact hlast
      refine .inl ⟨text, rest, c :: rest, hnext, hsplit, if_pos hc, ?_, ?_, fun _ => ?_, ?_⟩
      · refine copyArg_eq (fun hmem => hclean ?_) (.inr (not_dangling htext))
        exact List.mem_cons_of_mem c (List.mem_append_left _ hmem)
      · rw [List.length_cons, List.length_append, List.length_cons] at hlength
        omega
      · rw [← hdangling, dangling_cons hne, dangling_append htext, dangling_cons hne]
      · exact fun hmem => hclean (by simp [hmem])
    | none =>
      have hnext : nextWord s = some (unquoted (c :: t)) := by
        rw [nextWord, hdrop]
        dsimp only
        rw [hquoted]
        rfl
      have hsplit : wordsplit stop s = some (scan stop (c :: t)) := by
        rw [wordsplit, hdrop]
        dsimp only
        by_cases hc : isQuote c = true
        · rw [if_pos hc] at hquoted ⊢
          rw [endquote_eq, show quoted c c t = none from hquoted]
          rfl
        · rw [if_neg hc]
      obtain hall | ⟨word, e, rest, hword, he, hct, hcomplete, htail, hscan⟩ :=
        unquoted_cases (c :: t)
      · rw [hall] at hnext
        rw [scan_all hall hclean] at hsplit
        by_cases hover : stop ≠ 0 ∧ dangling (c :: t) = true
        · rw [if_pos hover] at hsplit
          exact .inr ⟨c :: t, hnext, hsplit, hover.2, hover.1, hdangling ▸ hover.2, hclean⟩
        · rw [if_neg hover] at hsplit
          refine .inl ⟨c :: t, [], [], hnext, hsplit, rfl, copyArg_eq hclean ?_, ?_, fun hstop => ?_,
            List.not_mem_nil⟩
          · by_cases hstop : stop = 0
            · exact .inl hstop
            · exact .inr (Bool.eq_false_iff.mpr fun h => hover ⟨hstop, h⟩)
          · rw [List.length_cons] at hlength
            exact Nat.lt_of_lt_of_le (Nat.succ_pos _) hlength
          · rw [← hdangling]
            exact Bool.eq_false_iff.mpr fun h => hover ⟨hstop, h⟩
      · rw [hscan stop hclean] at hsplit
        rw [hword] at hnext
        have hquote : isQuote e = false := by
          unfold isBlank at he
          unfold isQuote
          rw [Bool.or_eq_true, decide_eq_true_iff, decide_eq_true_iff] at he
          obtain rfl | rfl := he <;> rfl
        have hblank : dangling (e :: rest) = dangling rest :=
          dangling_cons (by rintro rfl; cases he) rest
        refine .inl ⟨word, e :: rest, e :: rest, hnext, hsplit, ?_, ?_, ?_, fun _ => ?_, ?_⟩
        · rw [skipQuote, hquote]
          rfl
        · refine copyArg_eq (fun hmem => hclean ?_) (.inr hcomplete)
          rw [hct]
          exact List.mem_append_left _ hmem
        · have hword' : word ≠ [] := by
            rintro rfl
            have hnot := List.head?_dropWhile_not isBlank s
            rw [hdrop, hct] at hnot
            rw [show isBlank e = false from by simpa using hnot] at he
            cases he
          have hpos := List.length_pos_iff.mpr hword'
          rw [hct, List.length_append] at hlength
          omega
        · rw [← hdangling, htail, hblank]
        · rw [hct] at hclean
          exact fun hmem => hclean (List.mem_append_right _ hmem)

theorem words_of_lt {n m : Nat} {s : Bytes} (hs : 0 ∉ s) (hn : s.length < n) (hm : s.length < m) :
    words n s = words m s := by
  induction n generalizing m s with
  | zero => cases hn
  | succ n ih =>
    obtain _ | m := m
    · cases hm
    obtain ⟨hnext, -⟩ | ⟨word, rest, last, h⟩ | ⟨word, h⟩ := wordsplit_cases 1 hs
    · rw [words, words, hnext]
    · have hshorter := h.shorter
      rw [words, words, h.next]
      exact congrArg _ (ih h.clean (by omega) (by omega))
    · have hpos : 0 < s.length := List.length_pos_iff.mpr (by rintro rfl; cases h.region)
      rw [words, words, h.next]
      exact congrArg _ (ih List.not_mem_nil (Nat.lt_of_lt_of_le hpos (by omega))
        (Nat.lt_of_lt_of_le hpos (by omega)))

theorem length_copyWords {stop : UInt8} {n : Nat} {last : Bytes} {args : List Bytes}
    (h : copyWords stop n last = some args) : args.length = countWords stop n last := by
  induction n generalizing last args with
  | zero =>
    cases h
    rfl
  | succ n ih =>
    rw [copyWords] at h
    rw [countWords]
    cases hsplit : wordsplit stop (skipQuote last) with
    | none =>
      rw [hsplit] at h
      cases h
      rfl
    | some found =>
      rw [hsplit] at h
      dsimp only at h
      split at h
      · cases h
      · obtain ⟨args', hargs, rfl⟩ := Option.map_eq_some_iff.mp h
        exact congrArg (· + 1) (ih hargs)

theorem dashes_not_mem_copyWords {stop : UInt8} {n : Nat} {last : Bytes} {args : List Bytes}
    (h : copyWords stop n last = some args) : dashes ∉ args := by
  induction n generalizing last args with
  | zero =>
    cases h
    exact List.not_mem_nil
  | succ n ih =>
    rw [copyWords] at h
    split at h
    · cases h
      exact List.not_mem_nil
    · dsimp only at h
      split at h
      · cases h
      · next hne =>
        obtain ⟨args', hargs, rfl⟩ := Option.map_eq_some_iff.mp h
        rw [List.mem_cons, not_or]
        exact ⟨Ne.symm hne, ih hargs⟩

theorem Overrun.copy_ne {stop : UInt8} {s word : Bytes} (h : Overrun stop s word) (hne : stop ≠ 92)
    (behind : UInt8) : copyArg behind (word ++ [stop]) ≠ removeEscapes word := by
  obtain ⟨front, hremove, hcopy⟩ := copyArg_dangling h.dangling h.stop h.clean
  rw [hremove, hcopy]
  intro heq
  exact hne (List.cons.inj (List.append_cancel_left heq)).1

theorem copyWords_eq_iff {stop : UInt8} (hne : stop ≠ 92) {n : Nat} {last : Bytes}
    (hlast : 0 ∉ skipQuote last) (hn : (skipQuote last).length < n) {args : List Bytes}
    (h : copyWords stop n last = some args) :
    args = words n (skipQuote last) ↔ ¬(stop ≠ 0 ∧ dangling (skipQuote last) = true) := by
  induction n generalizing last args with
  | zero => cases hn
  | succ n ih =>
    rw [copyWords] at h
    rw [words]
    obtain ⟨hnext, hsplit, hnot⟩ | ⟨word, rest, last', hword⟩ | ⟨word, hword⟩ := wordsplit_cases stop hlast
    · rw [hsplit] at h
      cases h
      rw [hnext]
      exact iff_of_true rfl fun hboth => by
        rw [hnot] at hboth
        cases hboth.2
    · rw [hword.split] at h
      dsimp only at h
      split at h
      · cases h
      · obtain ⟨args', hargs, rfl⟩ := Option.map_eq_some_iff.mp h
        have hshorter := hword.shorter
        have hrest := ih (hword.skip ▸ hword.clean) (by rw [hword.skip]; omega) hargs
        rw [hword.skip] at hrest
        rw [hword.next, hword.copy]
        dsimp only
        rw [List.cons_inj_right, hrest]
        exact not_congr (and_congr_right fun hstop => by rw [hword.dangling hstop])
    · rw [hword.split] at h
      dsimp only at h
      split at h
      · cases h
      · obtain ⟨args', hargs, rfl⟩ := Option.map_eq_some_iff.mp h
        rw [hword.next]
        refine iff_of_false (fun heq => hword.copy_ne hne _ (List.cons.inj heq).1) fun hnot => ?_
        exact hnot ⟨hword.stop, hword.region⟩

/-! ## The editor that is found -/

theorem built_iff {findPath : Bytes → Option Bytes} {files : List Bytes} (hfiles : files ≠ [])
    {ed : Candidate} (hclean : 0 ∉ ed.region) (hne : ed.stop ≠ 92) {path : Bytes}
    {argv : List Bytes} {slots : Nat} (h : resolveEditor findPath files ed = .found path argv slots) :
    Built ed files argv slots ↔
      ¬overruns ed ∧ (nextWord ed.region).map (fun word => removeEscapes word.1) ≠ some dashes := by
  unfold resolveEditor at h
  obtain ⟨-, hsplit, -⟩ | ⟨word, rest, last, hword⟩ | ⟨word, hword⟩ :=
    wordsplit_cases ed.stop hclean
  · rw [hsplit] at h
    cases h
  · rw [hword.split] at h
    dsimp only at h
    rw [hword.copy, if_neg hfiles, if_neg hfiles] at h
    cases hpath : findPath (removeEscapes word) with
    | none =>
      rw [hpath] at h
      cases h
    | some path' =>
      rw [hpath] at h
      dsimp only at h
      split at h
      · cases h
      · next args hargs =>
        cases h
        have hargs' := copyWords_eq_iff hne (hword.skip ▸ hword.clean)
          (hword.skip ▸ hword.shorter) hargs
        rw [hword.skip] at hargs'
        rw [hword.next, Option.map_some]
        have hover : overruns ed ↔ ed.stop ≠ 0 ∧ dangling rest = true :=
          and_congr_right fun hstop => by rw [hword.dangling hstop]
        rw [hover, ← hargs']
        constructor
        · intro hbuilt
          have hwords := hbuilt.words _ (Nat.lt_succ_self _)
          have hseparator := hbuilt.separator _ (Nat.lt_succ_self _)
          rw [words, hword.next] at hwords hseparator
          refine ⟨(List.cons.inj (List.append_cancel_right hwords)).2, fun heq => hseparator ?_⟩
          exact List.mem_cons.mpr (.inl (Option.some.inj heq).symm)
        · rintro ⟨hrest, hfirst⟩
          have hall : ∀ n, ed.region.length < n →
              words n ed.region = removeEscapes word :: args := by
            intro n hn
            rw [words_of_lt hclean hn (Nat.lt_succ_self _), words, hword.next, hrest]
          refine ⟨fun n hn => by rw [hall n hn], ?_, fun n hn => ?_⟩
          · rw [List.length_append, List.length_cons, List.length_cons, length_copyWords hargs]
            omega
          · rw [hall n hn, List.mem_cons, not_or]
            exact ⟨fun heq => hfirst (congrArg some heq.symm), dashes_not_mem_copyWords hargs⟩
  · rw [hword.split] at h
    dsimp only at h
    refine iff_of_false (fun hbuilt => ?_) fun hnot => hnot.1 ⟨hword.stop, hword.region⟩
    have hwords := hbuilt.words _ (Nat.lt_succ_self _)
    rw [words, hword.next] at hwords
    rw [if_neg hfiles, if_neg hfiles] at h
    split at h
    · cases h
    · split at h
      · cases h
      · cases h
        exact hword.copy_ne hne _ (List.cons.inj hwords).1

theorem elements_mem {n : Nat} {str : Bytes} (hstr : 0 ∉ str) {ed : Candidate}
    (h : ed ∈ elements n str) : 0 ∉ ed.region ∧ ed.stop ≠ 92 := by
  induction n generalizing str with
  | zero => cases h
  | succ n ih =>
    rw [elements] at h
    split at h
    · cases h
    · next c cp hdrop =>
      have hclean : 0 ∉ c :: cp := fun hmem =>
        hstr ((List.dropWhile_sublist _).mem (hdrop ▸ hmem))
      have hlast : 0 ∉ (c :: cp).dropWhile (· ≠ 58) := fun hmem =>
        hclean ((List.dropWhile_sublist _).mem hmem)
      obtain rfl | h := List.mem_cons.mp h
      · refine ⟨fun hmem => hclean ((List.takeWhile_sublist _).mem hmem), ?_⟩
        have hnot := List.head?_dropWhile_not (· ≠ (58 : UInt8)) (c :: cp)
        cases hrest : (c :: cp).dropWhile (· ≠ 58) with
        | nil =>
          show ([] : Bytes).headD 0 ≠ 92
          decide
        | cons d rest =>
          rw [hrest] at hnot
          obtain rfl : d = 58 := by simpa using hnot
          show (58 : UInt8) ≠ 92
          decide
      · exact ih hlast h

theorem candidates_mem {env : List (Option CString)} {defEditor : CString} {ed : Candidate}
    (h : ed ∈ candidates env defEditor) : 0 ∉ ed.region ∧ ed.stop ≠ 92 := by
  obtain h | h := List.mem_append.mp h
  · obtain ⟨setting, -, hsetting⟩ := List.mem_filterMap.mp h
    obtain ⟨value, -, hvalue⟩ := Option.bind_eq_some_iff.mp hsetting
    split at hvalue
    · cases hvalue
    · cases hvalue
      exact ⟨value.clean, show (0 : UInt8) ≠ 92 by decide⟩
  · exact elements_mem defEditor.clean h

theorem tryEach_some {findPath : Bytes → Option Bytes} {files : List Bytes} {eds : List Candidate}
    {enoent : Bool} {path : Bytes} {argv : List Bytes} {slots : Nat}
    (h : tryEach findPath files eds enoent = some (path, argv, slots)) :
    ∃ ed ∈ eds, resolveEditor findPath files ed = .found path argv slots := by
  induction eds generalizing enoent with
  | nil => cases h
  | cons ed eds ih =>
    rw [tryEach] at h
    have htail : ∀ {enoent}, tryEach findPath files eds enoent = some (path, argv, slots) →
        ∃ ed' ∈ ed :: eds, resolveEditor findPath files ed' = .found path argv slots := by
      intro enoent h
      obtain ⟨ed', hmem, hfound⟩ := ih h
      exact ⟨ed', List.mem_cons_of_mem ed hmem, hfound⟩
    split at h
    · next hfound =>
      cases h
      exact ⟨ed, List.mem_cons_self, hfound⟩
    · cases h
    · exact htail h
    · split at h
      · exact htail h
      · cases h

/-- The vector comes from one candidate, and it is that candidate's words, `--` and the files,
exactly if no last backslash takes the byte behind the candidate and the editor is not `--`. -/
theorem find_editor_built_iff {findPath : Bytes → Option Bytes} {files : List Bytes}
    (hfiles : files ≠ []) {sudoEditor visual editor : Option CString} {defEditor : CString}
    {enoent : Bool} {path : Bytes} {argv : List Bytes} {slots : Nat}
    (h : findEditor findPath files sudoEditor visual editor defEditor enoent =
      some (path, argv, slots)) :
    ∃ ed ∈ candidates [sudoEditor, visual, editor] defEditor,
      resolveEditor findPath files ed = .found path argv slots ∧
      (Built ed files argv slots ↔
        ¬overruns ed ∧
          (nextWord ed.region).map (fun word => removeEscapes word.1) ≠ some dashes) := by
  obtain ⟨ed, hmem, hfound⟩ := tryEach_some h
  obtain ⟨hclean, hne⟩ := candidates_mem hmem
  exact ⟨ed, hmem, hfound, built_iff hfiles hclean hne hfound⟩

theorem find_editor_built_vi :
    ∃ ed ∈ candidates [some (ShellArgs.cstring (Iolog.ascii "vi -c \"a b\"")), none, none]
        (ShellArgs.cstring []),
      resolveEditor some [Iolog.ascii "f"] ed = .found (Iolog.ascii "vi")
        [Iolog.ascii "vi", Iolog.ascii "-c", Iolog.ascii "a b", dashes, Iolog.ascii "f"] 5 ∧
      (Built ed [Iolog.ascii "f"]
          [Iolog.ascii "vi", Iolog.ascii "-c", Iolog.ascii "a b", dashes, Iolog.ascii "f"] 5 ↔
        ¬overruns ed ∧
          (nextWord ed.region).map (fun word => removeEscapes word.1) ≠ some dashes) :=
  @find_editor_built_iff some [Iolog.ascii "f"] (by decide)
    (some (ShellArgs.cstring (Iolog.ascii "vi -c \"a b\""))) none none (ShellArgs.cstring []) false
    (Iolog.ascii "vi") _ _ (by decide +kernel)

end NextBSD.Sudoers.Editor
