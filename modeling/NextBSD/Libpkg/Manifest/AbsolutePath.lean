import Mathlib.Data.List.Flatten
import NextBSD.Libpkg.Manifest.Path

/-!
# Lexical paths

`pkg_absolutepath` from the root or from the current directory, against the resolution of the
components of a path on a stack.  A stack that starts at the root is written to a destination that
holds a slash already, and the slash of the first component is added to it.
-/

namespace NextBSD.Libpkg.Manifest

def startDest (sys : System) (src : Bytes) (fromroot : Bool) : Option Bytes :=
  if src ≠ [] ∧ src.head? ≠ some 47 then (if fromroot then some [47] else sys.cwd) else some []

/-- `pkg_absolutepath`. -/
def pkgAbsolutepathFrom (sys : System) (src : Bytes) (destSize : Nat) (fromroot : Bool) :
    Option Bytes := do
  let start ← startDest sys src fromroot
  let dest ← (src.splitOn 47).foldlM (appendComponent destSize) start
  if dest = [] then (if destSize ≤ 1 then none else some [47]) else some dest

theorem pkgAbsolutepathFrom_false (sys : System) (src : Bytes) (destSize : Nat) :
    pkgAbsolutepathFrom sys src destSize false = pkgAbsolutepath sys src destSize := by
  unfold pkgAbsolutepathFrom pkgAbsolutepath startDest
  by_cases h : src ≠ [] ∧ src.head? ≠ some 47
  · rw [if_pos h, if_pos h, if_neg Bool.false_ne_true]
  · rw [if_neg h, if_neg h]

/-! ## Resolution -/

def resolveStep (stack : List Bytes) (cur : Bytes) : List Bytes :=
  if cur = [] ∨ cur = [46] then stack
  else if cur = [46, 46] then stack.dropLast
  else stack ++ [cur]

/-- The directories that a path names, seen from the directories of `base`. -/
def resolved (base : List Bytes) (src : Bytes) : List Bytes :=
  (src.splitOn 47).foldl resolveStep base

def pathOf (stack : List Bytes) : Bytes := if stack = [] then [47] else joinPath stack

/-- Where a path starts: at the root, or in the directory `dirs`. -/
def baseOf (dirs : List Bytes) (src : Bytes) (fromroot : Bool) : List Bytes :=
  if fromroot ∨ src.head? = some 47 then [] else dirs

/-- The result is canonical, it is the resolution of the source, and it is its own result. -/
def ResolvesExactly (sys : System) (dirs : List Bytes) (src : Bytes) (destSize : Nat)
    (fromroot : Bool) : Prop :=
  ∃ path, pkgAbsolutepathFrom sys src destSize fromroot = some path ∧ Canonical path ∧
    path = pathOf (resolved (baseOf dirs src fromroot) src) ∧
    pkgAbsolutepathFrom sys path destSize fromroot = some path

def Excess (base : List Bytes) (comps : List Bytes) : Prop :=
  ∃ front, front ++ [[46, 46]] <+: comps ∧ front.foldl resolveStep base = []

theorem resolveStep_proper {stack : List Bytes} (hstack : ∀ dir ∈ stack, Proper dir) {cur : Bytes}
    (hcur : 47 ∉ cur) : ∀ dir ∈ resolveStep stack cur, Proper dir := by
  unfold resolveStep
  split_ifs with hskip hup
  · exact hstack
  · exact fun dir hdir => hstack dir (List.mem_of_mem_dropLast hdir)
  · intro dir hdir
    rcases List.mem_append.mp hdir with hdir | hdir
    · exact hstack dir hdir
    · rw [List.mem_singleton.mp hdir]
      exact ⟨fun h => hskip (Or.inl h), fun h => hskip (Or.inr h), hup, hcur⟩

theorem foldl_resolveStep_proper {comps stack : List Bytes} (hcomps : ∀ cur ∈ comps, 47 ∉ cur)
    (hstack : ∀ dir ∈ stack, Proper dir) : ∀ dir ∈ comps.foldl resolveStep stack, Proper dir := by
  induction comps generalizing stack with
  | nil => exact hstack
  | cons cur comps ih =>
    rw [List.forall_mem_cons] at hcomps
    exact ih hcomps.2 (resolveStep_proper hstack hcomps.1)

theorem slash_not_mem_splitOn (src : Bytes) : ∀ cur ∈ src.splitOn 47, 47 ∉ cur := by
  induction src with
  | nil =>
    intro cur hcur
    rw [List.splitOn_nil, List.mem_singleton] at hcur
    rw [hcur]
    exact List.not_mem_nil
  | cons c src ih =>
    rw [List.splitOn_cons_eq_if_modifyHead]
    split_ifs with hc
    · rw [List.forall_mem_cons]
      exact ⟨List.not_mem_nil, ih⟩
    · cases hsplit : src.splitOn 47 with
      | nil => exact absurd hsplit (List.splitOn_ne_nil 47 src)
      | cons cur comps =>
        rw [hsplit, List.forall_mem_cons] at ih
        rw [List.modifyHead_cons, List.forall_mem_cons]
        refine ⟨fun hmem => ?_, ih.2⟩
        rcases List.mem_cons.mp hmem with heq | hmem
        · exact hc (beq_iff_eq.mpr heq.symm)
        · exact ih.1 hmem

theorem pathOf_canonical {stack : List Bytes} (h : ∀ dir ∈ stack, Proper dir) :
    Canonical (pathOf stack) := by
  unfold pathOf
  by_cases hnil : stack = []
  · rw [if_pos hnil]
    exact Or.inl rfl
  · rw [if_neg hnil]
    exact Or.inr ⟨stack, hnil, h, rfl⟩

/-! ## The destination

It is what was resolved, with the slash in front as long as no `..` has removed it. -/

structure Dest where
  lead : Bool
  stack : List Bytes

def Dest.text (dest : Dest) : Bytes := (if dest.lead then [47] else []) ++ joinPath dest.stack

def Dest.walk (dest : Dest) (cur : Bytes) : Dest :=
  if cur = [46, 46] ∧ dest.stack = [] then { lead := false, stack := [] }
  else { dest with stack := resolveStep dest.stack cur }

theorem joinPath_append (comps comps' : List Bytes) :
    joinPath (comps ++ comps') = joinPath comps ++ joinPath comps' := List.flatMap_append

theorem joinPath_singleton (cur : Bytes) : joinPath [cur] = 47 :: cur := List.append_nil _

theorem pop_slash {front cur : Bytes} (h : 47 ∉ cur) :
    ((front ++ 47 :: cur).reverse.dropWhile (· ≠ 47) |>.tail.reverse) = front := by
  have hall : ∀ c ∈ cur.reverse, decide (c ≠ 47) = true :=
    fun c hc => decide_eq_true fun heq => h (heq ▸ List.mem_reverse.mp hc)
  have hstop : ¬ decide ((47 : UInt8) ≠ 47) = true := by decide
  rw [List.reverse_append, List.reverse_cons, List.append_assoc, List.dropWhile_append_of_pos hall,
    List.singleton_append, List.dropWhile_cons, if_neg hstop, List.tail_cons, List.reverse_reverse]

theorem Dest.text_pop {dest : Dest} {cur : Bytes} (h : 47 ∉ cur) (stack : List Bytes)
    (hstack : dest.stack = stack ++ [cur]) :
    (if dest.text.contains 47 then
      dest.text.reverse.dropWhile (· ≠ 47) |>.tail.reverse else dest.text) =
        { dest with stack := stack : Dest }.text := by
  have htext : dest.text = { dest with stack := stack : Dest }.text ++ 47 :: cur := by
    unfold Dest.text
    rw [hstack, joinPath_append, joinPath_singleton, List.append_assoc]
  have hcontains : dest.text.contains 47 = true := by
    rw [htext, List.contains_iff_mem]
    exact List.mem_append_right _ List.mem_cons_self
  rw [if_pos hcontains, htext]
  exact pop_slash h

theorem Dest.walk_root {dest : Dest} (h : dest.stack = []) :
    dest.walk [46, 46] = { lead := false, stack := [] } := if_pos ⟨rfl, h⟩

theorem Dest.walk_up {dest : Dest} {stack : List Bytes} {last : Bytes}
    (h : dest.stack = stack ++ [last]) : dest.walk [46, 46] = { dest with stack := stack } := by
  have hne : dest.stack ≠ [] := by
    rw [h]
    exact List.append_ne_nil_of_right_ne_nil _ (List.cons_ne_nil _ _)
  unfold Dest.walk
  rw [if_neg fun hno => hne hno.2, h]
  show { dest with stack := (stack ++ [last]).dropLast : Dest } = _
  rw [List.dropLast_concat]

theorem Dest.walk_name {cur : Bytes} (hnil : cur ≠ []) (hdot : cur ≠ [46]) (hup : cur ≠ [46, 46])
    (dest : Dest) : dest.walk cur = { dest with stack := dest.stack ++ [cur] } := by
  unfold Dest.walk resolveStep
  rw [if_neg fun hno => hup hno.1, if_neg (not_or.mpr ⟨hnil, hdot⟩), if_neg hup]

theorem appendComponent_walk {size : Nat} {dest : Dest} (hdest : ∀ dir ∈ dest.stack, Proper dir)
    {cur : Bytes} (hroom : dest.text.length + 1 + cur.length < size) :
    appendComponent size dest.text cur = some (dest.walk cur).text := by
  unfold appendComponent
  by_cases hnil : cur = []
  · subst hnil
    rfl
  by_cases hdot : cur = [46]
  · subst hdot
    rfl
  rw [if_neg hnil, if_neg hdot]
  by_cases hup : cur = [46, 46]
  · subst hup
    rw [if_pos rfl]
    rcases List.eq_nil_or_concat dest.stack with hstack | ⟨stack, last, hstack⟩
    · -- the slash in front goes, if there is one
      rw [Dest.walk_root hstack]
      obtain ⟨lead, stack⟩ := dest
      obtain rfl : stack = [] := hstack
      cases lead <;> rfl
    · rw [List.concat_eq_append] at hstack
      have hlast : 47 ∉ last := by
        refine (hdest last ?_).no_slash
        rw [hstack]
        exact List.mem_append_right _ List.mem_cons_self
      rw [dest.text_pop hlast stack hstack, Dest.walk_up hstack]
  · rw [if_neg hup, if_neg (Nat.not_le.mpr hroom), Dest.walk_name hnil hdot hup]
    unfold Dest.text
    rw [joinPath_append, joinPath_singleton, List.append_assoc]

theorem Dest.walk_stack (dest : Dest) (cur : Bytes) :
    (dest.walk cur).stack = resolveStep dest.stack cur := by
  unfold Dest.walk
  split_ifs with h
  · rw [h.1, h.2]
    rfl
  · rfl

theorem Dest.length_walk_le (dest : Dest) (cur : Bytes) :
    (dest.walk cur).text.length ≤ dest.text.length + 1 + cur.length := by
  have hjoin : (joinPath (resolveStep dest.stack cur)).length ≤
      (joinPath dest.stack).length + 1 + cur.length := by
    unfold resolveStep
    split_ifs with hskip hup
    · omega
    · have hsub : (joinPath dest.stack.dropLast).length ≤ (joinPath dest.stack).length :=
        (List.Sublist.flatMap (List.dropLast_sublist dest.stack) _).length_le
      omega
    · rw [joinPath_append, joinPath_singleton, List.length_append, List.length_cons]
      omega
  unfold Dest.walk
  split_ifs with h
  · exact Nat.zero_le _
  · show ((if dest.lead then [47] else []) ++ joinPath (resolveStep dest.stack cur)).length ≤
      ((if dest.lead then [47] else []) ++ joinPath dest.stack).length + 1 + cur.length
    rw [List.length_append, List.length_append]
    omega

theorem length_foldl_walk_le (comps : List Bytes) (dest : Dest) :
    (comps.foldl Dest.walk dest).text.length ≤ dest.text.length + (joinPath comps).length := by
  induction comps generalizing dest with
  | nil => exact Nat.le_refl _
  | cons cur comps ih =>
    have hwalk := dest.length_walk_le cur
    have hrest := ih (dest.walk cur)
    rw [List.foldl_cons, joinPath_cons, List.length_append, List.length_cons]
    omega

theorem foldlM_walk {size : Nat} {comps : List Bytes} {dest : Dest}
    (hcomps : ∀ cur ∈ comps, 47 ∉ cur) (hdest : ∀ dir ∈ dest.stack, Proper dir)
    (hroom : dest.text.length + (joinPath comps).length < size) :
    comps.foldlM (appendComponent size) dest.text = some (comps.foldl Dest.walk dest).text := by
  induction comps generalizing dest with
  | nil => rfl
  | cons cur comps ih =>
    rw [List.forall_mem_cons] at hcomps
    have hlength : (joinPath (cur :: comps)).length = 1 + cur.length + (joinPath comps).length := by
      rw [joinPath_cons, List.length_append, List.length_cons]
      omega
    have hwalk := dest.length_walk_le cur
    rw [List.foldlM_cons, appendComponent_walk hdest (by omega)]
    refine ih hcomps.2 ?_ (by omega)
    rw [Dest.walk_stack]
    exact resolveStep_proper hdest hcomps.1

theorem foldl_walk_stack (comps : List Bytes) (dest : Dest) :
    (comps.foldl Dest.walk dest).stack = comps.foldl resolveStep dest.stack := by
  induction comps generalizing dest with
  | nil => rfl
  | cons cur comps ih => rw [List.foldl_cons, List.foldl_cons, ih, Dest.walk_stack]

theorem Excess.nil (base : List Bytes) : ¬ Excess base [] := by
  rintro ⟨front, hfront, -⟩
  exact List.append_ne_nil_of_right_ne_nil _ (List.cons_ne_nil _ _) (List.prefix_nil.mp hfront)

theorem excess_cons {base comps : List Bytes} {cur : Bytes} :
    Excess base (cur :: comps) ↔
      (cur = [46, 46] ∧ base = []) ∨ Excess (resolveStep base cur) comps := by
  constructor
  · rintro ⟨front, hfront, hroot⟩
    cases front with
    | nil => exact Or.inl ⟨(List.cons_prefix_cons.mp hfront).1.symm, hroot⟩
    | cons cur' front =>
      obtain ⟨rfl, hrest⟩ := List.cons_prefix_cons.mp hfront
      exact Or.inr ⟨front, hrest, hroot⟩
  · rintro (⟨rfl, hroot⟩ | ⟨front, hfront, hroot⟩)
    · exact ⟨[], List.cons_prefix_cons.mpr ⟨rfl, List.nil_prefix⟩, hroot⟩
    · exact ⟨cur :: front, List.cons_prefix_cons.mpr ⟨rfl, hfront⟩, hroot⟩

theorem foldl_walk_lead (comps : List Bytes) (dest : Dest) :
    (comps.foldl Dest.walk dest).lead = true ↔ dest.lead = true ∧ ¬ Excess dest.stack comps := by
  induction comps generalizing dest with
  | nil => exact ⟨fun h => ⟨h, Excess.nil _⟩, fun h => h.1⟩
  | cons cur comps ih =>
    rw [List.foldl_cons, ih, Dest.walk_stack, excess_cons, not_or]
    unfold Dest.walk
    split_ifs with h
    · exact iff_of_false (fun hno => hno.1.elim) fun hno => hno.2.1 h
    · exact ⟨fun hno => ⟨hno.1, h, hno.2⟩, fun hno => ⟨hno.1, hno.2.2⟩⟩

/-! ## The function -/

theorem joinPath_splitOn (src : Bytes) : joinPath (src.splitOn 47) = 47 :: src := by
  rw [← intercalate_joinPath (List.splitOn_ne_nil 47 src)]
  cases hsplit : src.splitOn 47 with
  | nil => exact absurd hsplit (List.splitOn_ne_nil 47 src)
  | cons cur comps =>
    have hsrc := @List.intercalate_splitOn _ src _ _ 47
    rw [hsplit] at hsrc
    rw [List.intercalate_cons_cons, hsrc]
    rfl

def startOf (dirs : List Bytes) (src : Bytes) (fromroot : Bool) : Dest :=
  if src = [] ∨ src.head? = some 47 then { lead := false, stack := [] }
  else if fromroot ∨ dirs = [] then { lead := true, stack := [] }
  else { lead := false, stack := dirs }

theorem startOf_stack {dirs : List Bytes} {src : Bytes} {fromroot : Bool}
    (h : src = [] → fromroot = true ∨ dirs = []) :
    (startOf dirs src fromroot).stack = baseOf dirs src fromroot := by
  unfold startOf baseOf
  by_cases hhead : src.head? = some 47
  · rw [if_pos (Or.inr hhead), if_pos (Or.inr hhead)]
  by_cases hroot : fromroot = true
  · rw [if_pos (show fromroot = true ∨ dirs = [] from Or.inl hroot),
      if_pos (show fromroot = true ∨ src.head? = some 47 from Or.inl hroot)]
    split_ifs <;> rfl
  rw [if_neg (not_or.mpr ⟨hroot, hhead⟩)]
  by_cases hdirs : dirs = []
  · rw [hdirs]
    split_ifs <;> rfl
  · have hsrc : src ≠ [] := fun hnil => (h hnil).elim hroot hdirs
    rw [if_neg (not_or.mpr ⟨hsrc, hhead⟩), if_neg (not_or.mpr ⟨hroot, hdirs⟩)]

theorem startOf_lead {dirs : List Bytes} {src : Bytes} {fromroot : Bool} :
    (startOf dirs src fromroot).lead = true ↔
      src ≠ [] ∧ src.head? ≠ some 47 ∧ (fromroot = true ∨ dirs = []) := by
  unfold startOf
  by_cases hsrc : src = [] ∨ src.head? = some 47
  · rw [if_pos hsrc]
    exact iff_of_false Bool.false_ne_true fun hno => hsrc.elim hno.1 hno.2.1
  · rw [if_neg hsrc]
    by_cases hroot : fromroot = true ∨ dirs = []
    · rw [if_pos hroot]
      exact iff_of_true rfl ⟨(not_or.mp hsrc).1, (not_or.mp hsrc).2, hroot⟩
    · rw [if_neg hroot]
      exact iff_of_false Bool.false_ne_true fun hno => hroot hno.2.2

theorem pkgAbsolutepathFrom_eq {sys : System} {dirs : List Bytes} {src : Bytes} {size : Nat}
    {fromroot : Bool} (hcwd : sys.cwd = some (pathOf dirs)) (hdirs : ∀ dir ∈ dirs, Proper dir)
    (hsize : (pathOf dirs).length + src.length + 1 < size) :
    let dest := ((src.splitOn 47).foldl Dest.walk (startOf dirs src fromroot)).text
    pkgAbsolutepathFrom sys src size fromroot = some (if dest = [] then [47] else dest) ∧
      dest.length < size := by
  have hone : 1 ≤ (pathOf dirs).length := by
    unfold pathOf
    split_ifs with hnil
    · exact Nat.le_refl 1
    · exact List.length_pos_iff.mpr (joinPath_ne_nil hnil)
  have hstart : startDest sys src fromroot = some (startOf dirs src fromroot).text := by
    unfold startOf startDest
    by_cases hsrc : src = [] ∨ src.head? = some 47
    · rw [if_pos hsrc, if_neg fun hno => hsrc.elim hno.1 hno.2]
      rfl
    · rw [if_neg hsrc, if_pos (not_or.mp hsrc), hcwd]
      cases fromroot with
      | true => rfl
      | false =>
        rw [if_neg Bool.false_ne_true]
        unfold pathOf
        by_cases hnil : dirs = []
        · rw [if_pos hnil, if_pos (Or.inr hnil)]
          rfl
        · rw [if_neg hnil, if_neg (not_or.mpr ⟨Bool.false_ne_true, hnil⟩)]
          rfl
  have hproper : ∀ dir ∈ (startOf dirs src fromroot).stack, Proper dir := by
    unfold startOf
    split_ifs
    · exact fun dir hdir => absurd hdir List.not_mem_nil
    · exact fun dir hdir => absurd hdir List.not_mem_nil
    · exact hdirs
  have hlength : (startOf dirs src fromroot).text.length ≤ (pathOf dirs).length := by
    unfold startOf
    by_cases hsrc : src = [] ∨ src.head? = some 47
    · rw [if_pos hsrc]
      exact Nat.zero_le _
    · rw [if_neg hsrc]
      by_cases hroot : fromroot = true ∨ dirs = []
      · rw [if_pos hroot]
        exact hone
      · rw [if_neg hroot]
        unfold pathOf
        rw [if_neg (not_or.mp hroot).2]
        exact Nat.le_refl _
  have hroom : (startOf dirs src fromroot).text.length + (joinPath (src.splitOn 47)).length < size := by
    rw [joinPath_splitOn, List.length_cons]
    omega
  refine ⟨?_, Nat.lt_of_le_of_lt (length_foldl_walk_le _ _) hroom⟩
  unfold pkgAbsolutepathFrom
  rw [hstart, Option.bind_eq_bind, Option.bind_some,
    foldlM_walk (slash_not_mem_splitOn src) hproper hroom, Option.bind_some]
  have hbig : ¬ size ≤ 1 := by omega
  rw [if_neg hbig]
  split_ifs <;> rfl

theorem pkgAbsolutepathFrom_canonical (sys : System) {path : Bytes} {size : Nat} (hsize : 1 < size)
    (h : Canonical path) (hfits : path.length < size) (fromroot : Bool) :
    pkgAbsolutepathFrom sys path size fromroot = some path := by
  have habsolute : ¬ (path ≠ [] ∧ path.head? ≠ some 47) := by
    rintro ⟨-, hhead⟩
    rcases h with rfl | ⟨comps, hne, -, rfl⟩
    · exact hhead rfl
    · cases comps with
      | nil => exact hne rfl
      | cons cur comps => exact hhead rfl
  have hcanonical := pkgAbsolutepath_canonical sys hsize h
  rw [if_pos hfits] at hcanonical
  rw [← hcanonical, ← pkgAbsolutepathFrom_false]
  unfold pkgAbsolutepathFrom startDest
  rw [if_neg habsolute, if_neg habsolute]

/-- The source is relative to the root, which is a slash already, and something is left of it
without a `..` at the root. -/
def DoubleSlash (dirs : List Bytes) (src : Bytes) (fromroot : Bool) : Prop :=
  src ≠ [] ∧ src.head? ≠ some 47 ∧ (fromroot = true ∨ dirs = []) ∧
    resolved [] src ≠ [] ∧ ¬ Excess [] (src.splitOn 47)

theorem pathOf_inj {stack stack' : List Bytes} (h : ∀ dir ∈ stack, Proper dir)
    (h' : ∀ dir ∈ stack', Proper dir) (heq : pathOf stack = pathOf stack') : stack = stack' := by
  have hsplit : ∀ {stack : List Bytes}, stack ≠ [] → (∀ dir ∈ stack, Proper dir) →
      (pathOf stack).splitOn 47 = [] :: stack := by
    intro stack hne hproper
    unfold pathOf
    rw [if_neg hne, splitOn_joinPath hne hproper]
  have hroot : (pathOf []).splitOn 47 = [[], []] := by decide
  by_cases hnil : stack = [] <;> by_cases hnil' : stack' = []
  · rw [hnil, hnil']
  · rw [hnil] at heq
    have hsame := hsplit hnil' h'
    rw [← heq, hroot] at hsame
    have hempty := h' [] (by rw [← (List.cons.inj hsame).2]; exact List.mem_cons_self)
    exact absurd rfl hempty.ne_nil
  · rw [hnil'] at heq
    have hsame := hsplit hnil h
    rw [heq, hroot] at hsame
    have hempty := h [] (by rw [← (List.cons.inj hsame).2]; exact List.mem_cons_self)
    exact absurd rfl hempty.ne_nil
  · have hsame := hsplit hnil h
    rw [heq, hsplit hnil' h'] at hsame
    exact (List.cons.inj hsame).2.symm

theorem text_eq_pathOf_iff {dest : Dest} :
    (if dest.text = [] then [47] else dest.text) = pathOf dest.stack ↔
      ¬ (dest.lead = true ∧ dest.stack ≠ []) := by
  obtain ⟨lead, stack⟩ := dest
  unfold Dest.text pathOf
  dsimp only
  by_cases hnil : stack = []
  · subst hnil
    refine iff_of_true ?_ fun hno => hno.2 rfl
    cases lead <;> rfl
  · have hjoin := joinPath_ne_nil hnil
    rw [if_neg hnil]
    cases lead with
    | false =>
      rw [if_neg Bool.false_ne_true, List.nil_append, if_neg hjoin]
      exact iff_of_true rfl fun hno => Bool.false_ne_true hno.1
    | true =>
      rw [if_pos rfl, List.singleton_append, if_neg (List.cons_ne_nil _ _)]
      refine iff_of_false (fun heq => ?_) fun hno => hno ⟨rfl, hnil⟩
      have hlength := congrArg List.length heq
      rw [List.length_cons] at hlength
      omega

/-- `pkg_absolutepath` resolves a path, except for an empty one in a directory, which names the
root, and for one that is relative to the root, which gets a second slash. -/
theorem pkgAbsolutepath_iff {sys : System} {dirs : List Bytes} {src : Bytes} {size : Nat}
    {fromroot : Bool} (hcwd : sys.cwd = some (pathOf dirs)) (hdirs : ∀ dir ∈ dirs, Proper dir)
    (hsize : (pathOf dirs).length + src.length + 1 < size) :
    ResolvesExactly sys dirs src size fromroot ↔
      ¬ DoubleSlash dirs src fromroot ∧ (src = [] → fromroot = true ∨ dirs = []) := by
  obtain ⟨heq, hlength⟩ : _ ∧ _ :=
    @pkgAbsolutepathFrom_eq sys dirs src size fromroot hcwd hdirs hsize
  have hbase : ∀ dir ∈ baseOf dirs src fromroot, Proper dir := by
    unfold baseOf
    split_ifs
    · exact fun dir hdir => absurd hdir List.not_mem_nil
    · exact hdirs
  have hresolved : ∀ dir ∈ resolved (baseOf dirs src fromroot) src, Proper dir :=
    foldl_resolveStep_proper (slash_not_mem_splitOn src) hbase
  have hcanonical := pathOf_canonical hresolved
  have hstack := foldl_walk_stack (src.splitOn 47) (startOf dirs src fromroot)
  have hlead := foldl_walk_lead (src.splitOn 47) (startOf dirs src fromroot)
  by_cases hempty : src = [] → fromroot = true ∨ dirs = []
  · generalize (src.splitOn 47).foldl Dest.walk (startOf dirs src fromroot) = dest
      at heq hlength hstack hlead
    rw [startOf_stack hempty] at hstack hlead
    change dest.stack = resolved (baseOf dirs src fromroot) src at hstack
    have hexact : ResolvesExactly sys dirs src size fromroot ↔
        (if dest.text = [] then [47] else dest.text) = pathOf dest.stack := by
      rw [hstack]
      constructor
      · rintro ⟨path, hpath, -, hvalue, -⟩
        exact (Option.some.inj (heq.symm.trans hpath)).trans hvalue
      · intro hvalue
        have hfits : (pathOf (resolved (baseOf dirs src fromroot) src)).length < size := by
          rw [← hvalue]
          split_ifs
          · show 1 < size
            omega
          · exact hlength
        rw [hvalue] at heq
        exact ⟨_, heq, hcanonical, rfl,
          pkgAbsolutepathFrom_canonical sys (by omega) hcanonical hfits fromroot⟩
    rw [hexact, text_eq_pathOf_iff, and_iff_left hempty, not_iff_not, hlead, startOf_lead, hstack]
    unfold DoubleSlash
    have hnone : fromroot = true ∨ dirs = [] → baseOf dirs src fromroot = [] := by
      intro hroot
      unfold baseOf
      split_ifs with h
      · rfl
      · exact hroot.resolve_left (not_or.mp h).1
    constructor
    · rintro ⟨⟨⟨hne, hrel, hroot⟩, hexcess⟩, hstay⟩
      rw [hnone hroot] at hexcess hstay
      exact ⟨hne, hrel, hroot, hstay, hexcess⟩
    · rintro ⟨hne, hrel, hroot, hstay, hexcess⟩
      rw [hnone hroot]
      exact ⟨⟨⟨hne, hrel, hroot⟩, hexcess⟩, hstay⟩
  · -- the empty path is read as an absolute one
    refine iff_of_false ?_ fun hno => hempty hno.2
    obtain ⟨rfl, hno⟩ := Classical.not_imp.mp hempty
    obtain ⟨hroot, hne⟩ := not_or.mp hno
    have hbase : baseOf dirs [] fromroot = dirs := by
      unfold baseOf
      rw [if_neg (not_or.mpr ⟨hroot, by decide⟩)]
    rintro ⟨path, hpath, -, hvalue, -⟩
    have hslash : path = pathOf [] := Option.some.inj (hpath.symm.trans heq)
    have hsame : resolved dirs [] = dirs := rfl
    rw [hbase, hsame, hslash] at hvalue
    exact hne (pathOf_inj (fun dir hdir => absurd hdir List.not_mem_nil) hdirs hvalue).symm

def usrSystem : System where
  fflagstostr := fun _ => none
  strtofflags := fun _ => none
  symbolicMode := fun _ => none
  cwd := some [47, 117, 115, 114]
  archToLegacy := id
  noVersionForDeps := false

/-- `../lib//a` in `/usr` is `/lib/a`. -/
theorem resolves_lib :
    ResolvesExactly usrSystem [[117, 115, 114]] [46, 46, 47, 108, 105, 98, 47, 47, 97] 1024 false ∧
      pkgAbsolutepathFrom usrSystem [46, 46, 47, 108, 105, 98, 47, 47, 97] 1024 false =
        some [47, 108, 105, 98, 47, 97] := by
  have husr : Proper [117, 115, 114] := ⟨by decide, by decide, by decide, by decide⟩
  refine ⟨(pkgAbsolutepath_iff rfl ?_ (by decide)).mpr ⟨?_, fun hno => ?_⟩, by decide⟩
  · exact fun dir hdir => List.mem_singleton.mp hdir ▸ husr
  · exact fun hno => hno.2.2.1.elim Bool.false_ne_true (List.cons_ne_nil _ _)
  · exact absurd hno (List.cons_ne_nil _ _)

/-- From the root, `a` is `//a`. -/
theorem not_resolves_relative : ¬ ResolvesExactly usrSystem [[117, 115, 114]] [97] 1024 true := by
  rintro ⟨path, hpath, -, hvalue, -⟩
  have hslashes : pkgAbsolutepathFrom usrSystem [97] 1024 true = some [47, 47, 97] := by decide
  obtain rfl := Option.some.inj (hslashes.symm.trans hpath)
  exact absurd hvalue (by decide)

end NextBSD.Libpkg.Manifest
