import NextBSD.Libpkg.Solve.Rules

/-!
# What a satisfying assignment selects

Each generator in terms of the assignment, and from these the properties of the
set of packages that an assignment selects when it satisfies all rules.
-/

namespace NextBSD.Libpkg

def PkgDep.uids (d : PkgDep) : List String := d.uid :: d.alternatives

namespace SolveProblem

/-- `w` is a variable that the require rule of `v` for `s` offers: it is in the chain of a
candidate that the universe lists for `s`, and it satisfies that entry. -/
def Provider (p : SolveProblem) (j : SolverJobs) (v : SolveVariable) (s : String)
    (w : SolveVariable) : Prop :=
  ∃ pr ∈ (j.jobUniverse.provides.lookup s).getD [], w ∈ p.slice pr.un.uid ∧
    satisfiesProvide j pr v.unit (p.slice pr.un.uid) w = some true

end SolveProblem

section Generators

variable {j : SolverJobs} {p : SolveProblem} {σ : Nat → Bool} {v : SolveVariable}

theorem holds_dependRule {d : PkgDep} :
    (∀ r ∈ pkgSolveAddDependRule p.variablesByUid v d, r.Holds σ) ↔
      ((∃ uid ∈ d.uids, p.variablesByUid.lookup uid ≠ none) → σ v.order = true →
        ∃ uid ∈ d.uids, ∃ w ∈ p.slice uid, σ w.order = true) := by
  have hfound : ((d.uid :: d.alternatives).filterMap fun uid => p.variablesByUid.lookup uid) = [] ↔
      ¬ ∃ uid ∈ d.uids, p.variablesByUid.lookup uid ≠ none := by
    simp only [List.filterMap_eq_nil_iff, PkgDep.uids, not_exists, not_and, not_not]
  have hmem (w : SolveVariable) :
      w ∈ ((d.uid :: d.alternatives).filterMap fun uid => p.variablesByUid.lookup uid).flatten ↔
        ∃ uid ∈ d.uids, w ∈ p.slice uid := by
    simp only [List.mem_flatten, List.mem_filterMap, SolveProblem.slice]
    constructor
    · intro hw
      obtain ⟨s, ⟨uid, huid, hs⟩, hw⟩ := hw
      exact ⟨uid, huid, by rw [hs]; exact hw⟩
    · intro hw
      obtain ⟨uid, huid, hw⟩ := hw
      cases hl : p.variablesByUid.lookup uid with
      | none => simp [hl] at hw
      | some s => exact ⟨s, ⟨uid, huid, hl⟩, by simpa [hl] using hw⟩
  rw [pkgSolveAddDependRule]
  by_cases hnone : ((d.uid :: d.alternatives).filterMap fun uid =>
      p.variablesByUid.lookup uid) = []
  · rw [if_pos hnone]
    have hno := hfound.mp hnone
    constructor
    · intro _ hyes
      exact absurd hyes hno
    · intro _ r hr
      cases hr
  · rw [if_neg hnone]
    have hyes : ∃ uid ∈ d.uids, p.variablesByUid.lookup uid ≠ none := by
      by_contra hno
      exact hnone (hfound.mpr hno)
    simp only [List.mem_singleton, forall_eq, holds_impliesItems, hmem]
    constructor
    · intro h _ hv
      obtain ⟨w, ⟨uid, huid, hw⟩, hσ⟩ := h hv
      exact ⟨uid, huid, w, hw, hσ⟩
    · intro h hv
      obtain ⟨uid, huid, w, hw, hσ⟩ := h hyes hv
      exact ⟨w, ⟨uid, huid, hw⟩, hσ⟩

theorem holds_conflictRule {c : PkgConflict} :
    (∀ r ∈ pkgSolveAddConflictRule p.variablesByUid v c, r.Holds σ) ↔
      ∀ w ∈ p.slice c.uid, conflictApplies v.unit c w.unit = true →
        ¬ (σ v.order = true ∧ σ w.order = true) := by
  simp only [pkgSolveAddConflictRule, List.mem_map, List.mem_filter, SolveProblem.slice]
  constructor
  · intro h w hw happ
    exact holds_excludesItems.mp (h _ ⟨w, ⟨hw, happ⟩, rfl⟩)
  · intro h r hr
    obtain ⟨w, ⟨hw, happ⟩, hr⟩ := hr
    rw [← hr]
    exact holds_excludesItems.mpr (h w hw happ)

theorem holds_requireRule {s : String} {rs : List SolveRule}
    (hrs : pkgSolveAddRequireRule j p.variablesByUid v s = some rs) :
    (∀ r ∈ rs, r.Holds σ) ↔
      ((∃ w, p.Provider j v s w) → σ v.order = true →
        ∃ w, p.Provider j v s w ∧ σ w.order = true) := by
  rw [pkgSolveAddRequireRule] at hrs
  cases hl : j.jobUniverse.provides.lookup s with
  | none =>
    rw [hl] at hrs
    rw [← Option.some.inj hrs]
    simp [SolveProblem.Provider, hl]
  | some provvec =>
    rw [hl] at hrs
    obtain ⟨providers, hprov, hrs⟩ := Option.bind_eq_some_iff.mp hrs
    obtain ⟨hto, hfrom⟩ := mem_of_mapM hprov
    have hmem (w : SolveVariable) : w ∈ providers.flatten ↔ p.Provider j v s w := by
      rw [List.mem_flatten, SolveProblem.Provider, hl, Option.getD_some]
      constructor
      · intro hw
        obtain ⟨ws, hws, hw⟩ := hw
        obtain ⟨pr, hpr, hhandle⟩ := hfrom ws hws
        exact ⟨pr, hpr, (mem_filterOption hhandle).mp hw⟩
      · intro hw
        obtain ⟨pr, hpr, hw⟩ := hw
        obtain ⟨ws, hws, hhandle⟩ := hto pr hpr
        exact ⟨ws, hws, (mem_filterOption hhandle).mpr hw⟩
    rw [← Option.some.inj hrs]
    by_cases hnil : providers.flatten = []
    · rw [if_pos hnil]
      have hno : ¬ ∃ w, p.Provider j v s w := by
        intro hw
        obtain ⟨w, hw⟩ := hw
        have := (hmem w).mpr hw
        rw [hnil] at this
        cases this
      simp [hno]
    · rw [if_neg hnil]
      have hyes : ∃ w, p.Provider j v s w := by
        obtain ⟨w, hw⟩ := List.exists_mem_of_ne_nil _ hnil
        exact ⟨w, (hmem w).mp hw⟩
      simp only [List.mem_singleton, forall_eq, holds_impliesItems, hmem]
      constructor
      · intro h _
        exact h
      · intro h
        exact h hyes

theorem holds_chainRule {slice : List SolveVariable} :
    (∀ r ∈ pkgSolveAddChainRule slice, r.Holds σ) ↔
      slice.Pairwise fun v w => ¬ (σ v.order = true ∧ σ w.order = true) :=
  holds_pairConflicts

theorem eq_of_chainRule (h : pkgSolveJobsToSat j = some p) {uid : String}
    (hrules : ∀ r ∈ pkgSolveAddChainRule (p.slice uid), r.Holds σ) {w : SolveVariable}
    (hv : v ∈ p.slice uid) (hw : w ∈ p.slice uid) (hσv : σ v.order = true)
    (hσw : σ w.order = true) : v = w := by
  have hclauses : ∀ c ∈ Clause.excludePairs ((p.slice uid).map SolveVariable.order),
      Clause.Holds σ c := by
    rw [← map_pairConflicts .upgradeConflict]
    intro c hc
    obtain ⟨r, hr, hrc⟩ := List.mem_map.mp hc
    rw [← hrc]
    exact hrules r hr
  have horder := Clause.eq_of_holds_excludePairs hclauses (List.mem_map_of_mem hv)
    (List.mem_map_of_mem hw) hσv hσw
  exact eq_of_mem_slice h hv hw horder

theorem selected_of_vitalRule {slice : List SolveVariable}
    (h : ∀ r ∈ pkgSolveAddVitalRule slice, r.Holds σ) (hv : v ∈ slice)
    (hinst : v.unit.type = .installed) : ∃ w ∈ slice, σ w.order = true := by
  have hlast {q : SolveVariable → Bool} {w : SolveVariable}
      (hw : (slice.filter q).getLast? = some w) : w ∈ slice :=
    (List.mem_filter.mp (List.mem_of_getLast? hw)).1
  cases hl : (slice.filter fun v => v.unit.type = .installed).getLast? with
  | none =>
    have hnil := List.getLast?_eq_none_iff.mp hl
    have hmem : v ∈ slice.filter fun v => v.unit.type = .installed :=
      List.mem_filter.mpr ⟨hv, by simpa using hinst⟩
    rw [hnil] at hmem
    cases hmem
  | some l =>
    cases hr : (slice.filter fun v => v.unit.type ≠ .installed).getLast? with
    | none =>
      simp only [pkgSolveAddVitalRule, hl, hr, List.mem_singleton, forall_eq] at h
      obtain ⟨w, hw, hσ⟩ := (@holds_choiceItems _ _ [l]).mp h
      rw [List.mem_singleton.mp hw] at hσ
      exact ⟨l, hlast hl, hσ⟩
    | some r =>
      simp only [pkgSolveAddVitalRule, hl, hr, List.mem_singleton, forall_eq] at h
      obtain ⟨w, hw, hσ⟩ := (@holds_choiceItems _ _ [l, r]).mp h
      simp only [List.mem_cons, List.not_mem_nil, or_false] at hw
      rcases hw with hw | hw
      · exact ⟨l, hlast hl, hw ▸ hσ⟩
      · exact ⟨r, hlast hr, hw ▸ hσ⟩

end Generators

structure SolveProblem.Sound (p : SolveProblem) (j : SolverJobs) (σ : Nat → Bool) : Prop where
  unique : ∀ uid, ∀ v ∈ p.slice uid, ∀ w ∈ p.slice uid,
    σ v.order = true → σ w.order = true → v = w
  depends : ∀ v ∈ p.slice v.uid, σ v.order = true → ∀ d ∈ v.unit.depends,
    (∃ uid ∈ d.uids, uid ∈ j.jobUniverse.items.map Prod.fst) →
      ∃ uid ∈ d.uids, ∃ w ∈ p.slice uid, σ w.order = true
  conflicts : ∀ v ∈ p.slice v.uid, σ v.order = true → ∀ w ∈ p.slice w.uid, σ w.order = true →
    ∀ c ∈ v.unit.conflicts, c.uid = w.uid → conflictApplies v.unit c w.unit = false
  requires : ∀ v ∈ p.slice v.uid, σ v.order = true →
    ∀ s ∈ wantedShlibs j v.unit ++ v.unit.requires, (∃ w, p.Provider j v s w) →
      ∃ w, p.Provider j v s w ∧ σ w.order = true
  vital : addVital j = true → ∀ uid, ∀ v ∈ p.slice uid, v.unit.type = .installed →
    v.unit.vital = true → ∃ w ∈ p.slice uid, σ w.order = true

theorem lookup_ne_none_of_key {j : SolverJobs} {p : SolveProblem}
    (h : pkgSolveJobsToSat j = some p) {uid : String}
    (huid : uid ∈ j.jobUniverse.items.map Prod.fst) : p.variablesByUid.lookup uid ≠ none := by
  rw [← keys_addVariables 0, ← variables_of_built h] at huid
  obtain ⟨e, he, hkey⟩ := List.mem_map.mp huid
  intro hnone
  have hne := List.lookup_eq_none_iff.mp hnone e he
  rw [hkey] at hne
  simp at hne

/-- Every assignment that satisfies the rules of `pkg_solve_jobs_to_sat` selects a
consistent plan. -/
theorem pkgSolveJobsToSat_sound (j : SolverJobs) (p : SolveProblem) (σ : Nat → Bool)
    (h : pkgSolveJobsToSat j = some p) (hσ : ∀ r ∈ p.state.rules, r.Holds σ) : p.Sound j σ where
  unique := by
    intro uid v hv w hw hσv hσw
    exact eq_of_chainRule h (fun r hr => hσ r (mem_rules_of_ruleOf h (.chain hr))) hv hw hσv hσw
  depends := by
    intro v hv hσv d hd huid
    refine holds_dependRule.mp (fun r hr => hσ r (mem_rules_of_ruleOf h (.depend hv hd hr))) ?_ hσv
    obtain ⟨uid, hmem, hkey⟩ := huid
    exact ⟨uid, hmem, lookup_ne_none_of_key h hkey⟩
  conflicts := by
    intro v hv hσv w hw hσw c hc huid
    by_contra happ
    refine holds_conflictRule.mp
      (fun r hr => hσ r (mem_rules_of_ruleOf h (.conflict hv hc hr))) w ?_ ?_ ⟨hσv, hσw⟩
    · rw [huid]
      exact hw
    · simpa using happ
  requires := by
    intro v hv hσv s hs hprov
    obtain ⟨rs, hrs⟩ := requireRule_of_built h hv hs
    exact (holds_requireRule hrs).mp
      (fun r hr => hσ r (mem_rules_of_ruleOf h (.require hv hs hrs hr))) hprov hσv
  vital := by
    intro hadd uid v hv hinst hvital
    have hown := mem_own_slice h hv
    have huid := uid_of_mem_slice h hv
    refine selected_of_vitalRule (fun r hr => ?_) hv hinst
    rw [← huid] at hr
    exact hσ r (mem_rules_of_ruleOf h (.vital hown (by rw [hvital, hadd]; rfl) hr))

def appPkg : Pkg :=
  { type := .remote, name := "app", uid := "app", digest := some "a", abi := "FreeBSD:15:amd64",
    depends := [{ name := "lib", uid := "lib" }],
    conflicts := [{ uid := "lib", digest := some "l1" }],
    shlibsRequired := ["libc.so.7"] }

/-- A request for a package that depends on one of two versions of a library. -/
def libraryJobs : SolverJobs where
  type := .install
  requestAdd := [("app", [⟨appPkg, 0⟩])]
  jobUniverse :=
    { items := [("app", [appPkg]), ("lib",
        [{ type := .installed, name := "lib", uid := "lib", digest := some "l1", vital := true },
         { type := .remote, name := "lib", uid := "lib", digest := some "l2" }])] }
  wellFormed := ⟨by decide, by decide, by decide⟩

def libraryProblem : SolveProblem := (pkgSolveJobsToSat libraryJobs).getD ⟨[], {}⟩

theorem pkgSolveJobsToSat_sound_libraryJobs : libraryProblem.Sound libraryJobs (fun n => n ≠ 2) :=
  pkgSolveJobsToSat_sound libraryJobs libraryProblem _ rfl (by decide)

/-- A package whose library the base system has, while the universe has it too. -/
def systemShlibJobs : SolverJobs where
  type := .install
  systemShlibs := ["libc.so.7"]
  requestAdd := [("app", [⟨appPkg, 0⟩])]
  jobUniverse :=
    { items := [("app", [appPkg]), ("libc",
        [{ type := .remote, name := "libc", uid := "libc", digest := some "c",
           abi := "FreeBSD:15:amd64", shlibsProvided := ["libc.so.7"] }])] }
  wellFormed := ⟨by decide, by decide, by decide⟩

def systemShlibProblem : SolveProblem := (pkgSolveJobsToSat systemShlibJobs).getD ⟨[], {}⟩

/-- A system library makes no require rule: the candidate that has it may be left out. -/
theorem requires_systemShlibJobs :
    pkgSolveJobsToSat systemShlibJobs = some systemShlibProblem ∧
      ∃ σ : Nat → Bool, (∀ r ∈ systemShlibProblem.state.rules, r.Holds σ) ∧
        ∃ v ∈ systemShlibProblem.slice "app", σ v.order = true ∧
          ∃ s ∈ v.unit.shlibsRequired,
            (∃ w ∈ systemShlibProblem.slice "libc", s ∈ w.unit.shlibsProvided ∧
              abiSuits v.unit w.unit = some true) ∧
            ∀ e ∈ systemShlibProblem.variablesByUid, ∀ w ∈ e.2, s ∈ w.unit.shlibsProvided →
              σ w.order = false :=
  ⟨rfl, fun n => n = 1, by decide, by decide⟩

end NextBSD.Libpkg
