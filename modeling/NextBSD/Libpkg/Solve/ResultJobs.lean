import NextBSD.Library.Run
import NextBSD.Libpkg.Schedule.Graph
import NextBSD.Libpkg.Solve.Soundness

/-!
# From an assignment to jobs

`pkg_solve_sat_to_jobs`, which also turns back removals that seem unnecessary: an
installed package that the assignment deselects is kept if `pkg_solve_can_keep` finds
nothing against it.  Keeping a package changes the assignment for the rest of the run.
-/

namespace NextBSD.Libpkg

open Run

/-- The flags `PKG_VAR_INSTALL` and the jobs made so far. -/
structure ResultState where
  install : Nat → Bool
  jobs : List PkgSolved := []

def pkgSolveCanKeep (vars : VariablesByUid) (install : Nat → Bool) (var : SolveVariable) : Bool :=
  (var.unit.depends.all fun dep =>
    match vars.lookup dep.uid with
    | none => true
    | some depslice => depslice.any fun cv => install cv.order) &&
  (var.unit.conflicts.all fun conflict =>
    match vars.lookup conflict.uid with
    | none => true
    | some confslice => !confslice.any fun cv => install cv.order)

/-- The variables for which the first loop sets `add_var`, the last of which it keeps. -/
def addVars (install : Nat → Bool) (slice : List SolveVariable) : List SolveVariable :=
  slice.filter fun v => install v.order && v.unit.type ≠ .installed

/-- The variables for which the first loop sets `del_var`. -/
def delVars (install : Nat → Bool) (slice : List SolveVariable) : List SolveVariable :=
  slice.filter fun v => !install v.order && v.unit.type = .installed

def insertAddJob (j : SolverJobs) (slice : List SolveVariable) (st : ResultState) : ResultState :=
  match (addVars st.install slice).getLast?, (delVars st.install slice).getLast? with
  | some add, none =>
    { st with jobs := st.jobs ++
        [{ type := if j.type = .fetch then .fetch else .install, items0 := add.unit }] }
  | some add, some del =>
    { st with jobs := st.jobs ++
        [{ type := .upgrade, items0 := add.unit, items1 := some del.unit }] }
  | none, _ => st

/-- An installed package that is not requested for deletion is kept if it can be. -/
def keeps (j : SolverJobs) (vars : VariablesByUid) (install : Nat → Bool)
    (curVar : SolveVariable) : Bool :=
  (j.type = .install || j.type = .upgrade) && (j.requestDelete.lookup curVar.uid).isNone &&
    pkgSolveCanKeep vars install curVar

def considers (install : Nat → Bool) (upgraded : Option SolveVariable) (curVar : SolveVariable) :
    Bool :=
  !install curVar.order && curVar.unit.type = .installed && upgraded ≠ some curVar

def deleteVar (j : SolverJobs) (vars : VariablesByUid) (upgraded : Option SolveVariable)
    (st : ResultState) (curVar : SolveVariable) : ResultState :=
  if considers st.install upgraded curVar then
    if keeps j vars st.install curVar then
      { st with install := Function.update st.install curVar.order true }
    else { st with jobs := st.jobs ++ [{ type := .delete, items0 := curVar.unit }] }
  else st

/-- The variable that the loop skips: `del_var`, if there is an upgrade. -/
def upgradedVar (install : Nat → Bool) (slice : List SolveVariable) : Option SolveVariable :=
  if 0 < (addVars install slice).length then (delVars install slice).getLast? else none

/-- Whether the slice gets to the loop: at most one package to install, and some change. -/
def reachesDelete (install : Nat → Bool) (slice : List SolveVariable) : Bool :=
  (addVars install slice).length ≤ 1 &&
    ((addVars install slice).length ≠ 0 || (delVars install slice).length ≠ 0)

def pkgSolveInsertResJob (j : SolverJobs) (vars : VariablesByUid) (st : ResultState)
    (slice : String × List SolveVariable) : ResultState :=
  if reachesDelete st.install slice.2 then
    slice.2.foldl (deleteVar j vars (upgradedVar st.install slice.2))
      (insertAddJob j slice.2 st)
  else st

/-- `pkg_solve_sat_to_jobs`, with the slices in the order of the hash. -/
def pkgSolveSatToJobs (j : SolverJobs) (vars : VariablesByUid)
    (slices : List (String × List SolveVariable)) (st : ResultState) : ResultState :=
  slices.foldl (pkgSolveInsertResJob j vars) st

def SolveRule.IsPlanRule (r : SolveRule) : Prop :=
  r.reason = .depend ∨ r.reason = .require ∨ r.reason = .explicitConflict ∨
    r.reason = .upgradeConflict

instance (r : SolveRule) : Decidable r.IsPlanRule := inferInstanceAs (Decidable (_ ∨ _ ∨ _ ∨ _))

def SolveProblem.Plan (p : SolveProblem) (install : Nat → Bool) : Prop :=
  ∀ r ∈ p.state.rules, r.IsPlanRule → r.Holds install

instance (p : SolveProblem) (install : Nat → Bool) : Decidable (p.Plan install) :=
  inferInstanceAs (Decidable (∀ r ∈ p.state.rules, r.IsPlanRule → r.Holds install))

/-- What `pkg_solve_can_keep` does not look at: alternatives of a dependency that is not in
the universe, requirements, conflicts that another package declares, and other versions of the
package. -/
structure SolveProblem.KeepSafe (p : SolveProblem) (j : SolverJobs) (install : Nat → Bool)
    (v : SolveVariable) : Prop where
  alternatives : ∀ d ∈ v.unit.depends, p.variablesByUid.lookup d.uid = none →
    (∃ uid ∈ d.alternatives, p.variablesByUid.lookup uid ≠ none) →
      ∃ uid ∈ d.alternatives, ∃ w ∈ p.slice uid, install w.order = true ∨ w = v
  requires : ∀ s ∈ wantedShlibs j v.unit ++ v.unit.requires, (∃ w, p.Provider j v s w) →
    ∃ w, p.Provider j v s w ∧ (install w.order = true ∨ w = v)
  conflicts : ∀ w ∈ p.slice w.uid, install w.order = true ∨ w = v →
    ∀ c ∈ w.unit.conflicts, c.uid = v.uid → conflictApplies w.unit c v.unit = false
  version : ∀ w ∈ p.slice v.uid, w ≠ v → install w.order = false

structure SolveProblem.Consistent (p : SolveProblem) (j : SolverJobs) (install : Nat → Bool) :
    Prop where
  depends : ∀ v ∈ p.slice v.uid, install v.order = true → ∀ d ∈ v.unit.depends,
    (∃ uid ∈ d.uids, p.variablesByUid.lookup uid ≠ none) →
      ∃ uid ∈ d.uids, ∃ w ∈ p.slice uid, install w.order = true
  requires : ∀ v ∈ p.slice v.uid, install v.order = true →
    ∀ s ∈ wantedShlibs j v.unit ++ v.unit.requires, (∃ w, p.Provider j v s w) →
      ∃ w, p.Provider j v s w ∧ install w.order = true
  conflicts : ∀ v ∈ p.slice v.uid, install v.order = true → ∀ c ∈ v.unit.conflicts,
    ∀ w ∈ p.slice c.uid, install w.order = true → conflictApplies v.unit c w.unit = false
  version : ∀ uid, ∀ v ∈ p.slice uid, ∀ w ∈ p.slice uid,
    install v.order = true → install w.order = true → v = w

theorem reason_of_dependRule {vars : VariablesByUid} {v : SolveVariable} {d : PkgDep}
    {r : SolveRule} (hr : r ∈ pkgSolveAddDependRule vars v d) : r.reason = .depend := by
  simp only [pkgSolveAddDependRule] at hr
  split at hr
  · cases hr
  · rw [List.mem_singleton.mp hr]

theorem reason_of_conflictRule {vars : VariablesByUid} {v : SolveVariable} {c : PkgConflict}
    {r : SolveRule} (hr : r ∈ pkgSolveAddConflictRule vars v c) : r.reason = .explicitConflict := by
  obtain ⟨w, -, hw⟩ := List.mem_map.mp hr
  rw [← hw]

theorem reason_of_requireRule {j : SolverJobs} {vars : VariablesByUid} {v : SolveVariable}
    {s : String} {rs : List SolveRule} (hrs : pkgSolveAddRequireRule j vars v s = some rs)
    {r : SolveRule} (hr : r ∈ rs) : r.reason = .require := by
  rw [pkgSolveAddRequireRule] at hrs
  cases hl : j.jobUniverse.provides.lookup s with
  | none =>
    rw [hl] at hrs
    rw [← Option.some.inj hrs] at hr
    cases hr
  | some provvec =>
    rw [hl] at hrs
    obtain ⟨providers, -, hrs⟩ := Option.bind_eq_some_iff.mp hrs
    rw [← Option.some.inj hrs] at hr
    split at hr
    · cases hr
    · rw [List.mem_singleton.mp hr]

theorem reason_of_vitalRule {slice : List SolveVariable} {r : SolveRule}
    (hr : r ∈ pkgSolveAddVitalRule slice) : r.reason = .vital := by
  simp only [pkgSolveAddVitalRule] at hr
  split at hr
  · rw [List.mem_singleton.mp hr]
  · rw [List.mem_singleton.mp hr]
  · cases hr

section
variable {j : SolverJobs} {p : SolveProblem} {install : Nat → Bool} {v : SolveVariable}

theorem nodup_slice (h : pkgSolveJobsToSat j = some p) (uid : String) : (p.slice uid).Nodup := by
  have hall : (p.variablesByUid.flatMap Prod.snd).Nodup := by
    have horders := @order_addVariables 0 j.jobUniverse.items
    rw [← variables_of_built h, ← List.map_flatMap] at horders
    have hnodup : ((p.variablesByUid.flatMap Prod.snd).map SolveVariable.order).Nodup := by
      rw [horders]
      exact List.nodup_range'
    exact hnodup.of_map
  cases hl : p.variablesByUid.lookup uid with
  | none => simp [SolveProblem.slice, hl]
  | some slice =>
    have hmem := Assoc.mem_of_lookup hl
    rw [SolveProblem.slice, hl]
    exact (List.nodup_flatMap.mp hall).1 (uid, slice) hmem

theorem SolveProblem.Plan.consistent (h : pkgSolveJobsToSat j = some p) (hplan : p.Plan install) :
    p.Consistent j install where
  depends := by
    intro v hv hσ d hd hfound
    refine holds_dependRule.mp (fun r hr => hplan r (mem_rules_of_ruleOf h (.depend hv hd hr)) ?_)
      hfound hσ
    exact Or.inl (reason_of_dependRule hr)
  requires := by
    intro v hv hσ s hs hprov
    obtain ⟨rs, hrs⟩ := requireRule_of_built h hv hs
    refine (holds_requireRule hrs).mp
      (fun r hr => hplan r (mem_rules_of_ruleOf h (.require hv hs hrs hr)) ?_) hprov hσ
    exact Or.inr (Or.inl (reason_of_requireRule hrs hr))
  conflicts := by
    intro v hv hσ c hc w hw hσw
    by_contra happ
    refine holds_conflictRule.mp
      (fun r hr => hplan r (mem_rules_of_ruleOf h (.conflict hv hc hr)) ?_) w hw ?_ ⟨hσ, hσw⟩
    · exact Or.inr (Or.inr (Or.inl (reason_of_conflictRule hr)))
    · simpa using happ
  version := by
    intro uid v hv w hw hσv hσw
    refine eq_of_chainRule h (fun r hr => ?_) hv hw hσv hσw
    refine hplan r (mem_rules_of_ruleOf h (.chain hr)) ?_
    exact Or.inr (Or.inr (Or.inr (mem_pairConflicts_reason hr)))

theorem SolveProblem.Consistent.plan (h : pkgSolveJobsToSat j = some p)
    (hcons : p.Consistent j install) : p.Plan install := by
  intro r hr hkind
  rcases ruleOf_of_mem_rules h hr with hreq | hrule
  · rcases hreq with hreq | hreq <;> simp [SolveRule.IsPlanRule, hreq] at hkind
  · cases hrule with
    | depend hv hd hr =>
      exact holds_dependRule.mpr (fun hfound hσ => hcons.depends _ hv hσ _ hd hfound) r hr
    | conflict hv hc hr =>
      refine holds_conflictRule.mpr (fun w hw happ hσ => ?_) r hr
      rw [hcons.conflicts _ hv hσ.1 _ hc w hw hσ.2] at happ
      cases happ
    | require hv hs hrs hr =>
      exact (holds_requireRule hrs).mpr (fun hprov hσ => hcons.requires _ hv hσ _ hs hprov) r hr
    | vital hv hvital hr => simp [SolveRule.IsPlanRule, reason_of_vitalRule hr] at hkind
    | @chain uid r hr =>
      refine holds_chainRule.mpr ?_ r hr
      refine (nodup_slice h uid).imp_of_mem fun hv hw hne hσ => ?_
      exact hne (hcons.version uid _ hv _ hw hσ.1 hσ.2)

theorem plan_iff_consistent (h : pkgSolveJobsToSat j = some p) :
    p.Plan install ↔ p.Consistent j install :=
  ⟨fun hplan => hplan.consistent h, fun hcons => hcons.plan h⟩

theorem install_update (h : pkgSolveJobsToSat j = some p) {uid uid' : String}
    {v w : SolveVariable} (hv : v ∈ p.slice uid) (hw : w ∈ p.slice uid') :
    Function.update install v.order true w.order = true ↔ install w.order = true ∨ w = v := by
  by_cases ho : w.order = v.order
  · have hwv : w = v := eq_of_mem_slice h hw hv ho
    simp [hwv]
  · have hne : w ≠ v := fun he => ho (he ▸ rfl)
    simp [Function.update_of_ne ho, hne]

theorem canKeep_depends (hkeep : pkgSolveCanKeep p.variablesByUid install v = true) {d : PkgDep}
    (hd : d ∈ v.unit.depends) (hfound : p.variablesByUid.lookup d.uid ≠ none) :
    ∃ w ∈ p.slice d.uid, install w.order = true := by
  rw [pkgSolveCanKeep, Bool.and_eq_true] at hkeep
  have hdep := List.all_eq_true.mp hkeep.1 d hd
  cases hl : p.variablesByUid.lookup d.uid with
  | none => exact absurd hl hfound
  | some depslice =>
    rw [hl] at hdep
    rw [SolveProblem.slice, hl]
    simpa using hdep

theorem canKeep_conflicts (hkeep : pkgSolveCanKeep p.variablesByUid install v = true)
    {c : PkgConflict} (hc : c ∈ v.unit.conflicts) {w : SolveVariable} (hw : w ∈ p.slice c.uid) :
    install w.order = false := by
  rw [pkgSolveCanKeep, Bool.and_eq_true] at hkeep
  have hconf := List.all_eq_true.mp hkeep.2 c hc
  cases hl : p.variablesByUid.lookup c.uid with
  | none => simp [SolveProblem.slice, hl] at hw
  | some confslice =>
    rw [SolveProblem.slice, hl] at hw
    rw [hl] at hconf
    simp only [Bool.not_eq_true', List.any_eq_false] at hconf
    simpa using hconf w hw

theorem SolveProblem.Consistent.keepSafe (h : pkgSolveJobsToSat j = some p)
    (hv : v ∈ p.slice v.uid)
    (hcons : p.Consistent j (Function.update install v.order true)) :
    p.KeepSafe j install v := by
  have hself : Function.update install v.order true v.order = true := Function.update_self _ _ _
  have hmem {uid : String} {w : SolveVariable} (hw : w ∈ p.slice uid) :=
    @install_update j p install h _ _ v w hv hw
  refine
    { alternatives := ?_
      requires := ?_
      conflicts := ?_
      version := ?_ }
  · intro d hd hnone hfound
    obtain ⟨alt, halt, hl⟩ := hfound
    obtain ⟨uid, huid, w, hw, hσ⟩ := hcons.depends v hv hself d hd
      ⟨alt, List.mem_cons_of_mem _ halt, hl⟩
    rcases List.mem_cons.mp huid with hd' | halt'
    · rw [hd', SolveProblem.slice, hnone] at hw
      cases hw
    · exact ⟨uid, halt', w, hw, (hmem hw).mp hσ⟩
  · intro s hs hprov
    obtain ⟨w, hw, hσ⟩ := hcons.requires v hv hself s hs hprov
    obtain ⟨pr, hpr, hslice, hsat⟩ := hw
    exact ⟨w, ⟨pr, hpr, hslice, hsat⟩, (hmem hslice).mp hσ⟩
  · intro w hw hσ c hc huid
    exact hcons.conflicts w hw ((hmem hw).mpr hσ) c hc v (huid ▸ hv) hself
  · intro w hw hne
    by_contra hσ
    have hσw : install w.order = true := by simpa using hσ
    exact hne (hcons.version v.uid w hw v hv ((hmem hw).mpr (Or.inl hσw)) hself)

theorem SolveProblem.KeepSafe.consistent (h : pkgSolveJobsToSat j = some p)
    (hv : v ∈ p.slice v.uid) (hcons : p.Consistent j install)
    (hkeep : pkgSolveCanKeep p.variablesByUid install v = true)
    (hsafe : p.KeepSafe j install v) :
    p.Consistent j (Function.update install v.order true) := by
  have hmem {uid : String} {w : SolveVariable} (hw : w ∈ p.slice uid) :=
    @install_update j p install h _ _ v w hv hw
  refine
    { depends := ?_
      requires := ?_
      conflicts := ?_
      version := ?_ }
  · intro u hu hσ d hd hfound
    rcases (hmem hu).mp hσ with hσ | huv
    · obtain ⟨uid, huid, w, hw, hσw⟩ := hcons.depends u hu hσ d hd hfound
      exact ⟨uid, huid, w, hw, (hmem hw).mpr (Or.inl hσw)⟩
    · subst huv
      by_cases hnone : p.variablesByUid.lookup d.uid = none
      · obtain ⟨uid, huid, hl⟩ := hfound
        have halt : ∃ uid ∈ d.alternatives, p.variablesByUid.lookup uid ≠ none := by
          rcases List.mem_cons.mp huid with hd' | halt
          · exact absurd (hd' ▸ hnone) hl
          · exact ⟨uid, halt, hl⟩
        obtain ⟨uid, huid, w, hw, hσw⟩ := hsafe.alternatives d hd hnone halt
        exact ⟨uid, List.mem_cons_of_mem _ huid, w, hw, (hmem hw).mpr hσw⟩
      · obtain ⟨w, hw, hσw⟩ := canKeep_depends hkeep hd hnone
        exact ⟨d.uid, List.mem_cons_self, w, hw, (hmem hw).mpr (Or.inl hσw)⟩
  · intro u hu hσ s hs hprov
    have hold : ∃ w, p.Provider j u s w ∧ (install w.order = true ∨ w = v) := by
      rcases (hmem hu).mp hσ with hσ | huv
      · obtain ⟨w, hw, hσw⟩ := hcons.requires u hu hσ s hs hprov
        exact ⟨w, hw, Or.inl hσw⟩
      · subst huv
        exact hsafe.requires s hs hprov
    obtain ⟨w, hw, hσw⟩ := hold
    obtain ⟨pr, hpr, hslice, hsat⟩ := hw
    exact ⟨w, ⟨pr, hpr, hslice, hsat⟩, (hmem hslice).mpr hσw⟩
  · intro u hu hσ c hc w hw hσw
    rcases (hmem hw).mp hσw with hσw' | hwv
    · rcases (hmem hu).mp hσ with hσ' | huv
      · exact hcons.conflicts u hu hσ' c hc w hw hσw'
      · subst huv
        rw [canKeep_conflicts hkeep hc hw] at hσw'
        cases hσw'
    · subst hwv
      exact hsafe.conflicts u hu ((hmem hu).mp hσ) c hc (uid_of_mem_slice h hw).symm
  · intro uid u hu w hw hσu hσw
    have hother {x : SolveVariable} (hx : x ∈ p.slice uid) (hvu : v ∈ p.slice uid)
        (hσx : install x.order = true) (hxv : x ≠ v) : False := by
      rw [← uid_of_mem_slice h hvu] at hx
      rw [hsafe.version x hx hxv] at hσx
      cases hσx
    rcases (hmem hu).mp hσu with hσu' | huv <;> rcases (hmem hw).mp hσw with hσw' | hwv
    · exact hcons.version uid u hu w hw hσu' hσw'
    · by_contra hne
      exact hother hu (hwv ▸ hw) hσu' (hwv ▸ hne)
    · by_contra hne
      exact hother hw (huv ▸ hu) hσw' (huv ▸ fun he => hne he.symm)
    · rw [huv, hwv]

theorem plan_keep_iff (h : pkgSolveJobsToSat j = some p) (hv : v ∈ p.slice v.uid)
    (hplan : p.Plan install) (hkeep : pkgSolveCanKeep p.variablesByUid install v = true) :
    p.Plan (Function.update install v.order true) ↔ p.KeepSafe j install v := by
  have hcons := hplan.consistent h
  rw [plan_iff_consistent h]
  constructor
  · intro hnew
    exact hnew.keepSafe h hv
  · intro hsafe
    exact hsafe.consistent h hv hcons hkeep

/-! ### The run -/

/-- `Q` holds at every variable that the delete loops of a run come to, with the state before
it and the variable that its loop skips. -/
def AlongDeletes (j : SolverJobs) (vars : VariablesByUid)
    (Q : ResultState → Option SolveVariable → SolveVariable → Prop) :
    ResultState → List (String × List SolveVariable) → Prop :=
  Along (pkgSolveInsertResJob j vars) fun st slice =>
    reachesDelete st.install slice.2 = true →
      Along (deleteVar j vars (upgradedVar st.install slice.2))
        (fun st' v => Q st' (upgradedVar st.install slice.2) v) (insertAddJob j slice.2 st) slice.2

def SolveProblem.EveryStatePlan (p : SolveProblem) (j : SolverJobs) :
    ResultState → List (String × List SolveVariable) → Prop :=
  AlongDeletes j p.variablesByUid fun st upgraded v =>
    p.Plan (deleteVar j p.variablesByUid upgraded st v).install

def SolveProblem.EveryKeepSafe (p : SolveProblem) (j : SolverJobs) :
    ResultState → List (String × List SolveVariable) → Prop :=
  AlongDeletes j p.variablesByUid fun st upgraded v =>
    considers st.install upgraded v = true → keeps j p.variablesByUid st.install v = true →
      p.KeepSafe j st.install v

theorem insertAddJob_install (slice : List SolveVariable) (st : ResultState) :
    (insertAddJob j slice st).install = st.install := by
  rw [insertAddJob]
  split <;> rfl

theorem plan_deleteVar_iff (h : pkgSolveJobsToSat j = some p) (hv : v ∈ p.slice v.uid)
    {upgraded : Option SolveVariable} {st : ResultState} (hplan : p.Plan st.install) :
    p.Plan (deleteVar j p.variablesByUid upgraded st v).install ↔
      (considers st.install upgraded v = true → keeps j p.variablesByUid st.install v = true →
        p.KeepSafe j st.install v) := by
  rw [deleteVar]
  by_cases hcons : considers st.install upgraded v = true
  · by_cases hkeep : keeps j p.variablesByUid st.install v = true
    · have hcan : pkgSolveCanKeep p.variablesByUid st.install v = true := by
        rw [keeps, Bool.and_eq_true] at hkeep
        exact hkeep.2
      rw [if_pos hcons, if_pos hkeep, plan_keep_iff h hv hplan hcan]
      simp only [hcons, hkeep, forall_const]
    · rw [if_pos hcons, if_neg hkeep]
      exact ⟨fun _ _ hk => absurd hk hkeep, fun _ => hplan⟩
  · rw [if_neg hcons]
    exact ⟨fun _ hc => absurd hc hcons, fun _ => hplan⟩

theorem slice_iff (h : pkgSolveJobsToSat j = some p) {e : String × List SolveVariable}
    (he : e ∈ p.variablesByUid) {upgraded : Option SolveVariable} {st : ResultState}
    (hplan : p.Plan st.install) :
    Along (deleteVar j p.variablesByUid upgraded)
        (fun st v => p.Plan (deleteVar j p.variablesByUid upgraded st v).install) st e.2 ↔
      Along (deleteVar j p.variablesByUid upgraded)
        (fun st v => considers st.install upgraded v = true →
          keeps j p.variablesByUid st.install v = true → p.KeepSafe j st.install v) st e.2 := by
  have hown {v : SolveVariable} (hv : v ∈ e.2) : v ∈ p.slice v.uid := by
    rw [uid_of_mem h he hv, slice_of_mem h he]
    exact hv
  exact along_congr (fun st : ResultState => p.Plan st.install)
    (fun _ _ hv hst => plan_deleteVar_iff h (hown hv) hst) (fun _ _ _ _ hst => hst) hplan

theorem plan_insertResJob {e : String × List SolveVariable} {st : ResultState} (hplan : p.Plan st.install)
    (hrun : reachesDelete st.install e.2 = true →
      Along (deleteVar j p.variablesByUid (upgradedVar st.install e.2))
        (fun st' v => p.Plan (deleteVar j p.variablesByUid (upgradedVar st.install e.2) st' v).install)
        (insertAddJob j e.2 st) e.2) :
    p.Plan (pkgSolveInsertResJob j p.variablesByUid st e).install := by
  rw [pkgSolveInsertResJob]
  by_cases hreach : reachesDelete st.install e.2 = true
  · rw [if_pos hreach]
    have hstart : p.Plan (insertAddJob j e.2 st).install := by
      rw [insertAddJob_install]
      exact hplan
    exact foldl_of_along (fun st : ResultState => p.Plan st.install) (fun _ _ _ _ hst => hst)
      hstart (hrun hreach)
  · rw [if_neg hreach]
    exact hplan

theorem everyStatePlan_iff (h : pkgSolveJobsToSat j = some p)
    {slices : List (String × List SolveVariable)} (hslices : ∀ e ∈ slices, e ∈ p.variablesByUid)
    {st : ResultState} (hplan : p.Plan st.install) :
    p.EveryStatePlan j st slices ↔ p.EveryKeepSafe j st slices := by
  refine along_congr (fun st : ResultState => p.Plan st.install) ?_ ?_ hplan
  · intro st e he hst
    have hstart : p.Plan (insertAddJob j e.2 st).install := by
      rw [insertAddJob_install]
      exact hst
    exact imp_congr_right fun _ => slice_iff h (hslices e he) hstart
  · intro st e he hst hrun
    exact plan_insertResJob hst hrun

theorem plan_of_everyStatePlan {slices : List (String × List SolveVariable)} {st : ResultState}
    (hplan : p.Plan st.install) (hrun : p.EveryStatePlan j st slices) :
    p.Plan (pkgSolveSatToJobs j p.variablesByUid slices st).install :=
  foldl_of_along (fun st : ResultState => p.Plan st.install)
    (fun _ _ _ hst hrun => plan_insertResJob hst hrun) hplan hrun

/-- From a satisfying assignment, and in whatever order the slices come: every state of the run
is a plan exactly if every package that is kept is safe to keep, and then so is the last one. -/
theorem pkgSolveSatToJobs_plan_iff (h : pkgSolveJobsToSat j = some p)
    (hσ : ∀ r ∈ p.state.rules, r.Holds install) {slices : List (String × List SolveVariable)}
    (horder : slices.Perm p.variablesByUid) :
    (p.EveryStatePlan j { install } slices ↔ p.EveryKeepSafe j { install } slices) ∧
      (p.EveryKeepSafe j { install } slices →
        p.Plan (pkgSolveSatToJobs j p.variablesByUid slices { install }).install) := by
  have hplan : p.Plan install := fun r hr _ => hσ r hr
  have hslices : ∀ e ∈ slices, e ∈ p.variablesByUid := fun e he => horder.mem_iff.mp he
  have hiff : p.EveryStatePlan j { install } slices ↔ p.EveryKeepSafe j { install } slices :=
    everyStatePlan_iff h hslices hplan
  exact ⟨hiff, fun hsafe => plan_of_everyStatePlan hplan (hiff.mpr hsafe)⟩

end

def oldLib : Pkg :=
  { type := .installed, name := "lib", uid := "lib", digest := some "1",
    abi := "FreeBSD:15:amd64", shlibsProvided := ["libx.so.1"] }

def newLib : Pkg :=
  { type := .remote, name := "lib", uid := "lib", digest := some "2",
    abi := "FreeBSD:15:amd64", shlibsProvided := ["libx.so.2"] }

def libUser : Pkg :=
  { type := .installed, name := "user", uid := "user", abi := "FreeBSD:15:amd64",
    shlibsRequired := ["libx.so.1"] }

/-- An upgrade of a library that an installed package needs in its old version. -/
def libUpgradeJobs : SolverJobs where
  type := .upgrade
  requestAdd := [("lib", [⟨newLib, 1⟩])]
  jobUniverse :=
    { items := [("lib", [oldLib, newLib]), ("user", [libUser])]
      provides := [("libx.so.1", [{ un := oldLib, provide := "libx.so.1", isShlib := true }])] }
  wellFormed := ⟨by decide, by decide, by decide⟩

def libUpgradeProblem : SolveProblem := (pkgSolveJobsToSat libUpgradeJobs).getD ⟨[], {}⟩

def upgradeLib (n : Nat) : Bool := n = 2

theorem pkgSolveSatToJobs_plan_iff_libUpgrade :
    (libUpgradeProblem.EveryStatePlan libUpgradeJobs { install := upgradeLib }
        libUpgradeProblem.variablesByUid ↔
      libUpgradeProblem.EveryKeepSafe libUpgradeJobs { install := upgradeLib }
        libUpgradeProblem.variablesByUid) ∧
    (libUpgradeProblem.EveryKeepSafe libUpgradeJobs { install := upgradeLib }
        libUpgradeProblem.variablesByUid →
      libUpgradeProblem.Plan (pkgSolveSatToJobs libUpgradeJobs libUpgradeProblem.variablesByUid
        libUpgradeProblem.variablesByUid { install := upgradeLib }).install) :=
  pkgSolveSatToJobs_plan_iff (show pkgSolveJobsToSat libUpgradeJobs = some libUpgradeProblem from rfl)
    (by decide) (List.Perm.refl _)

/-- The assignment satisfies every rule, but the package that it removes is kept, without the
library that it needs. -/
theorem not_plan_libUpgrade :
    pkgSolveJobsToSat libUpgradeJobs = some libUpgradeProblem ∧
      (∀ r ∈ libUpgradeProblem.state.rules, r.Holds upgradeLib) ∧
      ¬ libUpgradeProblem.Plan (pkgSolveSatToJobs libUpgradeJobs libUpgradeProblem.variablesByUid
        libUpgradeProblem.variablesByUid { install := upgradeLib }).install :=
  ⟨rfl, by decide, by decide⟩

end NextBSD.Libpkg
