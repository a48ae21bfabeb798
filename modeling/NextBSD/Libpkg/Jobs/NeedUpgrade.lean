import Mathlib.Data.String.Basic
import NextBSD.Library.SortedLists
import NextBSD.Libpkg.Jobs.Universe

/-!
# pkg_jobs.c: whether a package is to be upgraded

The vectors of the two packages are merged, and what differs is written to the reason.
-/

namespace NextBSD.Libpkg.NeedUpgrade

/-- What `pkg_jobs_need_upgrade` returns, and the text that `rp->reason` is set to. -/
structure Decision where
  needed : Bool
  reason : Option String := none
  deriving DecidableEq, Repr

def removed (key : String) : String := key ++ " (removed)"

def added (key : String) : String := key ++ " (added)"

def reasonOf (label : String) (entries : List String) : Option String :=
  if entries = [] then none else some (label ++ ": " ++ ", ".intercalate entries)

def charvDiff (loc remote : List String) (label : String) : Option String :=
  reasonOf label (SortedMerge.diff id removed added (fun _ _ => none) loc remote)

def abiReason (lp rp : Pkg) : Option String :=
  if lp.abi = rp.abi then none
  else some ("ABI changed: '" ++ lp.abi ++ "' -> '" ++ rp.abi ++ "'")

def flagText (vital : Bool) : String := if vital then "true" else "false"

def vitalReason (lp rp : Pkg) : Option String :=
  if lp.vital = rp.vital then none
  else some ("Vital flag changed: '" ++ flagText lp.vital ++ "' -> '" ++ flagText rp.vital ++ "'")

def optionsReason (optionsChange : Bool) (lp rp : Pkg) : Option String :=
  if optionsChange then
    reasonOf "option changed" (SortedMerge.diff Prod.fst (fun o => removed o.1)
      (fun o => added o.1) (fun l r =>
        if l.2 = r.2 then none else some (l.1 ++ " (" ++ l.2 ++ " -> " ++ r.2 ++ ")"))
      lp.options rp.options)
  else none

def dependsReason (lp rp : Pkg) : Option String :=
  reasonOf "direct dependency changed" (SortedMerge.diff PkgDep.name (fun d => removed d.name)
    (fun d => added d.name) (fun l r =>
      if l.origin = r.origin then none else some (r.name ++ " (origin changed)"))
    lp.depends rp.depends)

def conflictsDiffer : List PkgConflict → List PkgConflict → Bool
  | [], [] => false
  | rc :: rcs, lc :: lcs => if rc.uid = lc.uid then conflictsDiffer rcs lcs else true
  | _, _ => true

def conflictsReason (lp rp : Pkg) : Option String :=
  if conflictsDiffer rp.conflicts lp.conflicts then some "direct conflict changed" else none

/-- The inner loops over the shared libraries: those of the system are passed over. -/
def skipSystem (systemShlibs : List String) (shlibs : List String) : List String :=
  if systemShlibs ≠ [] then shlibs.dropWhile (charvSearch systemShlibs) else shlibs

theorem skipSystem_eq (systemShlibs shlibs : List String) :
    skipSystem systemShlibs shlibs = shlibs.dropWhile (charvSearch systemShlibs) := by
  unfold skipSystem
  split
  · rfl
  · next hempty =>
    rw [not_not.mp hempty]
    cases shlibs with
    | nil => rfl
    | cons s shlibs => rfl

theorem skipSystem_length_le (systemShlibs shlibs : List String) :
    (skipSystem systemShlibs shlibs).length ≤ shlibs.length := by
  rw [skipSystem_eq]
  exact (List.dropWhile_sublist _).length_le

def shlibsDiff (systemShlibs : List String) (loc remote : List String) : List String :=
  match _ : skipSystem systemShlibs loc, _ : skipSystem systemShlibs remote with
  | [], [] => []
  | l :: ls, [] => removed l :: shlibsDiff systemShlibs ls []
  | [], r :: rs => added r :: shlibsDiff systemShlibs [] rs
  | l :: ls, r :: rs =>
    if l < r then removed l :: shlibsDiff systemShlibs ls (r :: rs)
    else if r < l then added r :: shlibsDiff systemShlibs (l :: ls) rs
    else shlibsDiff systemShlibs ls rs
termination_by loc.length + remote.length
decreasing_by
  all_goals
    have hlength := skipSystem_length_le systemShlibs loc
    have hlength' := skipSystem_length_le systemShlibs remote
    rw [‹skipSystem systemShlibs loc = _›] at hlength
    rw [‹skipSystem systemShlibs remote = _›] at hlength'
    simp only [List.length_cons, List.length_nil] at hlength hlength' ⊢
    omega

def shlibsReason (systemShlibs : List String) (lp rp : Pkg) : Option String :=
  reasonOf "required shared library changed"
    (shlibsDiff systemShlibs lp.shlibsRequired rp.shlibsRequired)

/-- The comparisons of two packages of one version: the first that differs gives the reason. -/
def upgradeReason (systemShlibs : List String) (optionsChange : Bool) (lp rp : Pkg) :
    Option String :=
  (abiReason lp rp).or <| (vitalReason lp rp).or <| (optionsReason optionsChange lp rp).or <|
  (dependsReason lp rp).or <| (conflictsReason lp rp).or <|
  (charvDiff lp.provides rp.provides "provides changed").or <|
  (charvDiff lp.requires rp.requires "requires changed").or <|
  (charvDiff lp.shlibsProvided rp.shlibsProvided "provided shared library changed").or <|
  shlibsReason systemShlibs lp rp

/-- `pkg_jobs_need_upgrade`; `optionsChange` is `PKG_REINSTALL_ON_OPTIONS_CHANGE`. -/
def pkgJobsNeedUpgrade (systemShlibs : List String) (optionsChange : Bool) (rp : Pkg)
    (lp : Option Pkg) : Decision :=
  match lp with
  | none => { needed := true }
  | some lp =>
    if lp.locked then { needed := false }
    else if lp.digest ≠ none ∧ lp.digest = rp.digest then { needed := false }
    else
      let ret := versionCmp lp.version rp.version
      if 0 < ret then { needed := false }
      else if ret < 0 then { needed := true }
      else
        match upgradeReason systemShlibs optionsChange lp rp with
        | some text => { needed := true, reason := some text }
        | none => { needed := false }

theorem reasonOf_eq_none_iff (label : String) (entries : List String) :
    reasonOf label entries = none ↔ entries = [] := by
  unfold reasonOf
  split
  · next h => exact ⟨fun _ => h, fun _ => rfl⟩
  · next h => exact ⟨nofun, fun hnil => absurd hnil h⟩

theorem charvDiff_eq_none_iff (loc remote : List String) (label : String) :
    charvDiff loc remote label = none ↔ loc = remote := by
  unfold charvDiff
  rw [reasonOf_eq_none_iff, SortedMerge.diff_keys_eq_nil_iff, List.map_id, List.map_id]

theorem abiReason_eq_none_iff (lp rp : Pkg) : abiReason lp rp = none ↔ lp.abi = rp.abi := by
  unfold abiReason
  split
  · next h => exact ⟨fun _ => h, fun _ => rfl⟩
  · next h => exact ⟨nofun, fun hsame => absurd hsame h⟩

theorem vitalReason_eq_none_iff (lp rp : Pkg) : vitalReason lp rp = none ↔ lp.vital = rp.vital := by
  unfold vitalReason
  split
  · next h => exact ⟨fun _ => h, fun _ => rfl⟩
  · next h => exact ⟨nofun, fun hsame => absurd hsame h⟩

theorem optionsReason_eq_none_iff (optionsChange : Bool) (lp rp : Pkg) :
    optionsReason optionsChange lp rp = none ↔ (optionsChange = true → lp.options = rp.options) := by
  unfold optionsReason
  cases optionsChange with
  | false => exact ⟨fun _ => nofun, fun _ => rfl⟩
  | true =>
    rw [if_pos rfl, reasonOf_eq_none_iff, SortedMerge.diff_eq_nil_iff]
    have hpair : (fun l r : String × String => l.1 = r.1 ∧
        (if l.2 = r.2 then none else some (l.1 ++ " (" ++ l.2 ++ " -> " ++ r.2 ++ ")")) = none) =
        (· = ·) := by
      funext l r
      rw [ite_eq_left_iff, Prod.ext_iff]
      simp only [reduceCtorEq, imp_false, not_not]
    rw [hpair, List.forall₂_eq_eq_eq]
    exact ⟨fun h _ => h, fun h => h rfl⟩

theorem dependsReason_eq_none_iff (lp rp : Pkg) :
    dependsReason lp rp = none ↔
      (lp.depends.map fun d => (d.name, d.origin)) = rp.depends.map fun d => (d.name, d.origin) := by
  unfold dependsReason
  rw [reasonOf_eq_none_iff, SortedMerge.diff_eq_nil_iff, ← List.forall₂_eq_eq_eq,
    List.forall₂_map_left_iff, List.forall₂_map_right_iff]
  have hpair : (fun l r : PkgDep => l.name = r.name ∧
      (if l.origin = r.origin then none else some (r.name ++ " (origin changed)")) = none) =
      fun l r => (l.name, l.origin) = (r.name, r.origin) := by
    funext l r
    rw [ite_eq_left_iff, Prod.mk.injEq]
    simp only [reduceCtorEq, imp_false, not_not]
  rw [hpair]

theorem conflictsDiffer_eq_false_iff (rcs lcs : List PkgConflict) :
    conflictsDiffer rcs lcs = false ↔ lcs.map PkgConflict.uid = rcs.map PkgConflict.uid := by
  induction rcs generalizing lcs with
  | nil =>
    cases lcs with
    | nil => exact ⟨fun _ => rfl, fun _ => rfl⟩
    | cons lc lcs => exact ⟨nofun, nofun⟩
  | cons rc rcs ih =>
    cases lcs with
    | nil => exact ⟨nofun, nofun⟩
    | cons lc lcs =>
      have hstep : conflictsDiffer (rc :: rcs) (lc :: lcs) =
          if rc.uid = lc.uid then conflictsDiffer rcs lcs else true := rfl
      rw [List.map_cons, List.map_cons, List.cons.injEq, ← ih, hstep]
      split
      · next h => exact ⟨fun hrest => ⟨h.symm, hrest⟩, fun hrest => hrest.2⟩
      · next h => exact ⟨nofun, fun hrest => absurd hrest.1.symm h⟩

theorem conflictsReason_eq_none_iff (lp rp : Pkg) :
    conflictsReason lp rp = none ↔
      lp.conflicts.map PkgConflict.uid = rp.conflicts.map PkgConflict.uid := by
  rw [← conflictsDiffer_eq_false_iff]
  unfold conflictsReason
  cases conflictsDiffer rp.conflicts lp.conflicts with
  | false => exact ⟨fun _ => rfl, fun _ => rfl⟩
  | true => exact ⟨nofun, nofun⟩

def wanted (systemShlibs shlibs : List String) : List String :=
  shlibs.filter fun s => !charvSearch systemShlibs s

theorem wanted_skipSystem (systemShlibs shlibs : List String) :
    wanted systemShlibs (skipSystem systemShlibs shlibs) = wanted systemShlibs shlibs := by
  rw [skipSystem_eq]
  unfold wanted
  induction shlibs with
  | nil => rfl
  | cons s shlibs ih =>
    by_cases hs : charvSearch systemShlibs s = true
    · rw [List.dropWhile_cons_of_pos hs, ih, List.filter_cons_of_neg]
      rw [hs]
      exact Bool.false_ne_true
    · rw [List.dropWhile_cons_of_neg hs]

theorem wanted_of_skipSystem {systemShlibs shlibs rest : List String} {s : String}
    (h : skipSystem systemShlibs shlibs = s :: rest) :
    wanted systemShlibs shlibs = s :: wanted systemShlibs rest := by
  rw [← wanted_skipSystem, h]
  rw [skipSystem_eq] at h
  have hs : ¬ charvSearch systemShlibs s = true := by
    have hhead := List.head?_dropWhile_not (charvSearch systemShlibs) shlibs
    rw [h] at hhead
    exact Bool.eq_false_iff.mp hhead
  unfold wanted
  rw [List.filter_cons_of_pos]
  rw [Bool.eq_false_iff.mpr hs]
  rfl

theorem shlibsDiff_eq (systemShlibs loc remote : List String) :
    shlibsDiff systemShlibs loc remote =
      SortedMerge.diff id removed added (fun _ _ => none) (wanted systemShlibs loc)
        (wanted systemShlibs remote) := by
  fun_induction shlibsDiff systemShlibs loc remote with
  | case1 loc remote hl hr =>
    rw [← wanted_skipSystem systemShlibs loc, ← wanted_skipSystem systemShlibs remote, hl, hr]
    unfold wanted SortedMerge.diff
    rfl
  | case2 loc remote l ls hl hr ih =>
    rw [ih, ← wanted_skipSystem systemShlibs remote, wanted_of_skipSystem hl, hr]
    have hnil : wanted systemShlibs [] = [] := rfl
    rw [hnil, SortedMerge.diff]
  | case3 loc remote r rs hl hr ih =>
    rw [ih, ← wanted_skipSystem systemShlibs loc, wanted_of_skipSystem hr, hl]
    have hnil : wanted systemShlibs [] = [] := rfl
    rw [hnil, SortedMerge.diff]
  | case4 loc remote l ls r rs hl hr hlt ih =>
    have hremote : wanted systemShlibs (r :: rs) = wanted systemShlibs remote := by
      rw [← hr, wanted_skipSystem]
    rw [ih, hremote, wanted_of_skipSystem hl, wanted_of_skipSystem hr, SortedMerge.diff]
    exact (if_pos hlt).symm
  | case5 loc remote l ls r rs hl hr hle hlt ih =>
    have hloc : wanted systemShlibs (l :: ls) = wanted systemShlibs loc := by
      rw [← hl, wanted_skipSystem]
    rw [ih, hloc, wanted_of_skipSystem hl, wanted_of_skipSystem hr]
    conv_rhs => rw [SortedMerge.diff]
    exact ((if_neg hle).trans (if_pos hlt)).symm
  | case6 loc remote l ls r rs hl hr hle hge ih =>
    rw [ih, wanted_of_skipSystem hl, wanted_of_skipSystem hr]
    conv_rhs => rw [SortedMerge.diff]
    exact ((if_neg hle).trans (if_neg hge)).symm

/-! ## The decision -/

theorem upgradeReason_eq_none_iff (systemShlibs : List String) (optionsChange : Bool)
    (lp rp : Pkg) :
    upgradeReason systemShlibs optionsChange lp rp = none ↔
      lp.abi = rp.abi ∧ lp.vital = rp.vital ∧
      (optionsChange = true → lp.options = rp.options) ∧
      ((lp.depends.map fun d => (d.name, d.origin)) = rp.depends.map fun d => (d.name, d.origin)) ∧
      lp.conflicts.map PkgConflict.uid = rp.conflicts.map PkgConflict.uid ∧
      lp.provides = rp.provides ∧ lp.requires = rp.requires ∧
      lp.shlibsProvided = rp.shlibsProvided ∧
      wanted systemShlibs lp.shlibsRequired = wanted systemShlibs rp.shlibsRequired := by
  unfold upgradeReason shlibsReason
  rw [Option.or_eq_none_iff, Option.or_eq_none_iff, Option.or_eq_none_iff, Option.or_eq_none_iff,
    Option.or_eq_none_iff, Option.or_eq_none_iff, Option.or_eq_none_iff, Option.or_eq_none_iff,
    abiReason_eq_none_iff, vitalReason_eq_none_iff, optionsReason_eq_none_iff,
    dependsReason_eq_none_iff, conflictsReason_eq_none_iff, charvDiff_eq_none_iff,
    charvDiff_eq_none_iff, charvDiff_eq_none_iff, reasonOf_eq_none_iff, shlibsDiff_eq,
    SortedMerge.diff_keys_eq_nil_iff, List.map_id, List.map_id]

theorem pkgJobsNeedUpgrade_cases (systemShlibs : List String) (optionsChange : Bool) {lp rp : Pkg}
    (hlocked : lp.locked = false) (hdigest : ¬ (lp.digest ≠ none ∧ lp.digest = rp.digest)) :
    (pkgJobsNeedUpgrade systemShlibs optionsChange rp (some lp)).needed = true ↔
      versionCmp lp.version rp.version < 0 ∨
        (versionCmp lp.version rp.version = 0 ∧
          upgradeReason systemShlibs optionsChange lp rp ≠ none) := by
  unfold pkgJobsNeedUpgrade
  dsimp only
  rw [if_neg (by rw [hlocked]; exact Bool.false_ne_true), if_neg hdigest]
  split
  · next hgt => exact ⟨nofun, fun h => by omega⟩
  · next hle =>
    split
    · next hlt => exact ⟨fun _ => Or.inl hlt, fun _ => rfl⟩
    · next hge =>
      cases upgradeReason systemShlibs optionsChange lp rp with
      | none =>
        refine ⟨nofun, ?_⟩
        rintro (hlt | ⟨-, hne⟩)
        · exact absurd hlt hge
        · exact absurd rfl hne
      | some text => exact ⟨fun _ => Or.inr ⟨by omega, nofun⟩, fun _ => rfl⟩

structure SortedLists (pkg : Pkg) : Prop where
  options : (pkg.options.map Prod.fst).Pairwise (· < ·)
  depends : (pkg.depends.map PkgDep.name).Pairwise (· < ·)
  provides : pkg.provides.Pairwise (· < ·)
  requires : pkg.requires.Pairwise (· < ·)
  shlibsProvided : pkg.shlibsProvided.Pairwise (· < ·)
  shlibsRequired : pkg.shlibsRequired.Pairwise (· < ·)

def DependsOn (pkg : Pkg) (name : String) (origin : Option String) : Prop :=
  ∃ d ∈ pkg.depends, d.name = name ∧ d.origin = origin

/-- Two packages of one version differ in what `pkg_jobs_need_upgrade` looks at. -/
def Differs (systemShlibs : List String) (optionsChange : Bool) (lp rp : Pkg) : Prop :=
  lp.abi ≠ rp.abi ∨ lp.vital ≠ rp.vital ∨
  (optionsChange = true ∧ ∃ key, pkgKvGet lp.options key ≠ pkgKvGet rp.options key) ∨
  (∃ name origin, ¬ (DependsOn lp name origin ↔ DependsOn rp name origin)) ∨
  lp.conflicts.map PkgConflict.uid ≠ rp.conflicts.map PkgConflict.uid ∨
  (∃ s, ¬ (s ∈ lp.provides ↔ s ∈ rp.provides)) ∨
  (∃ s, ¬ (s ∈ lp.requires ↔ s ∈ rp.requires)) ∨
  (∃ s, ¬ (s ∈ lp.shlibsProvided ↔ s ∈ rp.shlibsProvided)) ∨
  ∃ s, s ∉ systemShlibs ∧ ¬ (s ∈ lp.shlibsRequired ↔ s ∈ rp.shlibsRequired)

theorem mem_iff_pkgKvGet {kv : List (String × String)} (h : (kv.map Prod.fst).Pairwise (· < ·))
    (key value : String) : (key, value) ∈ kv ↔ pkgKvGet kv key = some value := by
  unfold pkgKvGet
  induction kv with
  | nil => exact ⟨nofun, nofun⟩
  | cons p kv ih =>
    rw [List.map_cons, List.pairwise_cons] at h
    rw [List.find?_cons, List.mem_cons]
    by_cases hp : p.1 = key
    · rw [beq_iff_eq.mpr hp]
      have hrest : (key, value) ∉ kv := fun hmem => by
        have hlt := h.1 key (List.mem_map.mpr ⟨_, hmem, rfl⟩)
        rw [hp] at hlt
        exact lt_irrefl key hlt
      constructor
      · rintro (hmem | hmem)
        · rw [← hmem]
          rfl
        · exact absurd hmem hrest
      · intro hvalue
        exact Or.inl (Prod.ext hp.symm (Option.some.inj hvalue).symm)
    · rw [beq_eq_false_iff_ne.mpr hp]
      dsimp only
      rw [← ih h.2]
      refine or_iff_right ?_
      rintro hmem
      exact hp (congrArg Prod.fst hmem).symm

theorem options_eq_iff {lp rp : Pkg} (hlp : SortedLists lp) (hrp : SortedLists rp) :
    lp.options = rp.options ↔ ∀ key, pkgKvGet lp.options key = pkgKvGet rp.options key := by
  refine ⟨fun h key => by rw [h], fun h => ?_⟩
  refine (SortedMerge.eq_iff_forall_mem_of_key Prod.fst hlp.options hrp.options).mpr ?_
  rintro ⟨key, value⟩
  rw [mem_iff_pkgKvGet hlp.options, mem_iff_pkgKvGet hrp.options, h]

theorem depends_eq_iff {lp rp : Pkg} (hlp : SortedLists lp) (hrp : SortedLists rp) :
    ((lp.depends.map fun d => (d.name, d.origin)) = rp.depends.map fun d => (d.name, d.origin)) ↔
      ∀ name origin, DependsOn lp name origin ↔ DependsOn rp name origin := by
  have hmem : ∀ (pkg : Pkg) name origin, DependsOn pkg name origin ↔
      (name, origin) ∈ pkg.depends.map fun d => (d.name, d.origin) := by
    intro pkg name origin
    rw [List.mem_map]
    exact exists_congr fun d => and_congr_right fun _ => Prod.mk.injEq .. ▸ Iff.rfl
  have hkey : ∀ pkg : Pkg,
      (pkg.depends.map fun d => (d.name, d.origin)).map Prod.fst = pkg.depends.map PkgDep.name := by
    intro pkg
    rw [List.map_map]
    rfl
  rw [SortedMerge.eq_iff_forall_mem_of_key Prod.fst (by rw [hkey]; exact hlp.depends)
    (by rw [hkey]; exact hrp.depends), Prod.forall]
  exact forall_congr' fun name => forall_congr' fun origin => by
    rw [hmem lp, hmem rp]

theorem wanted_eq_iff (systemShlibs : List String) {lp rp : Pkg} (hlp : SortedLists lp)
    (hrp : SortedLists rp) :
    wanted systemShlibs lp.shlibsRequired = wanted systemShlibs rp.shlibsRequired ↔
      ∀ s, s ∉ systemShlibs → (s ∈ lp.shlibsRequired ↔ s ∈ rp.shlibsRequired) := by
  have hmem : ∀ (l : List String) (s : String),
      s ∈ wanted systemShlibs l ↔ s ∉ systemShlibs ∧ s ∈ l := by
    intro l s
    unfold wanted
    rw [List.mem_filter, Bool.not_eq_true', ← Bool.not_eq_true, charvSearch_eq_true, and_comm]
  have hsorted : ∀ {pkg : Pkg}, SortedLists pkg →
      (wanted systemShlibs pkg.shlibsRequired).Pairwise (· < ·) :=
    fun hpkg => hpkg.shlibsRequired.filter _
  rw [SortedMerge.eq_iff_forall_mem (hsorted hlp) (hsorted hrp)]
  refine forall_congr' fun s => ?_
  rw [hmem, hmem, and_congr_right_iff]

theorem not_differs_iff (systemShlibs : List String) (optionsChange : Bool) {lp rp : Pkg}
    (hlp : SortedLists lp) (hrp : SortedLists rp) :
    ¬ Differs systemShlibs optionsChange lp rp ↔
      upgradeReason systemShlibs optionsChange lp rp = none := by
  rw [upgradeReason_eq_none_iff, options_eq_iff hlp hrp, depends_eq_iff hlp hrp,
    wanted_eq_iff systemShlibs hlp hrp, SortedMerge.eq_iff_forall_mem hlp.provides hrp.provides,
    SortedMerge.eq_iff_forall_mem hlp.requires hrp.requires,
    SortedMerge.eq_iff_forall_mem hlp.shlibsProvided hrp.shlibsProvided]
  unfold Differs
  simp only [not_or, not_and, not_exists, not_not, ne_eq]

/-- An installed package that is not locked is upgraded just when the other is newer, or has the
same version and differs. -/
theorem pkgJobsNeedUpgrade_iff (systemShlibs : List String) (optionsChange : Bool) {lp rp : Pkg}
    (hlocked : lp.locked = false) (hdigest : ¬ (lp.digest ≠ none ∧ lp.digest = rp.digest))
    (hlp : SortedLists lp) (hrp : SortedLists rp) :
    (pkgJobsNeedUpgrade systemShlibs optionsChange rp (some lp)).needed = true ↔
      versionCmp lp.version rp.version < 0 ∨
        (versionCmp lp.version rp.version = 0 ∧ Differs systemShlibs optionsChange lp rp) := by
  rw [pkgJobsNeedUpgrade_cases systemShlibs optionsChange hlocked hdigest]
  refine or_congr_right (and_congr_right fun _ => ?_)
  rw [ne_eq, ← not_differs_iff systemShlibs optionsChange hlp hrp, not_not]

/-- The value of an option and a library of the system. -/
theorem pkgJobsNeedUpgrade_iff_option :
    let lp : Pkg := { type := .installed, name := "foo", uid := "foo", version := "1.0"
                      options := [("FOO", "on")], shlibsRequired := ["libc.so.7"] }
    let rp : Pkg := { type := .remote, name := "foo", uid := "foo", version := "1.0"
                      options := [("FOO", "off")] }
    (pkgJobsNeedUpgrade ["libc.so.7"] true rp (some lp)).needed = true ↔
      versionCmp lp.version rp.version < 0 ∨
        (versionCmp lp.version rp.version = 0 ∧ Differs ["libc.so.7"] true lp rp) :=
  pkgJobsNeedUpgrade_iff ["libc.so.7"] true rfl (fun h => h.1 rfl)
    ⟨List.pairwise_singleton _ _, .nil, .nil, .nil, .nil, List.pairwise_singleton _ _⟩
    ⟨List.pairwise_singleton _ _, .nil, .nil, .nil, .nil, .nil⟩

end NextBSD.Libpkg.NeedUpgrade
