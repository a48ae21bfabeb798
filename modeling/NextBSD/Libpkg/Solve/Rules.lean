import NextBSD.Library.Tables
import NextBSD.Libpkg.Solve.Problem
import Mathlib.Data.List.Nodup
import Mathlib.Data.List.Range

/-!
# What the clauses say

The rules of a problem are those of its variables and those of the requests, and
each rule is one of the clause shapes of `Clause`.  Nothing after this module looks
into the generators again.
-/

namespace NextBSD.Libpkg

namespace SolveProblem

def slice (p : SolveProblem) (uid : String) : List SolveVariable :=
  (p.variablesByUid.lookup uid).getD []

inductive RuleOf (j : SolverJobs) (p : SolveProblem) : SolveRule → Prop
  | depend {v : SolveVariable} {d : PkgDep} {r : SolveRule} (hv : v ∈ p.slice v.uid)
      (hd : d ∈ v.unit.depends) (hr : r ∈ pkgSolveAddDependRule p.variablesByUid v d) : RuleOf j p r
  | conflict {v : SolveVariable} {c : PkgConflict} {r : SolveRule} (hv : v ∈ p.slice v.uid)
      (hc : c ∈ v.unit.conflicts) (hr : r ∈ pkgSolveAddConflictRule p.variablesByUid v c) :
      RuleOf j p r
  | require {v : SolveVariable} {s : String} {r : SolveRule} {rs : List SolveRule}
      (hv : v ∈ p.slice v.uid) (hs : s ∈ wantedShlibs j v.unit ++ v.unit.requires)
      (hrs : pkgSolveAddRequireRule j p.variablesByUid v s = some rs) (hr : r ∈ rs) : RuleOf j p r
  | vital {v : SolveVariable} {r : SolveRule} (hv : v ∈ p.slice v.uid)
      (hvital : (v.unit.vital && addVital j) = true)
      (hr : r ∈ pkgSolveAddVitalRule (p.slice v.uid)) : RuleOf j p r
  | chain {uid : String} {r : SolveRule} (hr : r ∈ pkgSolveAddChainRule (p.slice uid)) : RuleOf j p r

end SolveProblem

theorem keys_addVariables (n : Nat) (items : List (String × List Pkg)) :
    (pkgSolveAddVariables n items).map Prod.fst = items.map Prod.fst := by
  induction items generalizing n with
  | nil => rfl
  | cons e rest ih => simp [pkgSolveAddVariables, ih]

theorem mem_addVariables {n : Nat} {items : List (String × List Pkg)}
    {e : String × List SolveVariable} (h : e ∈ pkgSolveAddVariables n items) :
    (e.1, e.2.map SolveVariable.unit) ∈ items := by
  induction items generalizing n with
  | nil => cases h
  | cons x rest ih =>
    rcases List.mem_cons.mp h with he | he
    · have hunits : e.2.map SolveVariable.unit = x.2 := by
        rw [he]
        apply List.ext_getElem?
        intro i
        simp [Function.comp_def]
      rw [hunits, he]
      exact List.mem_cons_self
    · exact List.mem_cons_of_mem _ (ih he)

theorem order_addVariables {n : Nat} {items : List (String × List Pkg)} :
    ((pkgSolveAddVariables n items).flatMap fun e => e.2.map SolveVariable.order) =
      List.range' (n + 1) ((items.map fun e => e.2.length).sum) := by
  induction items generalizing n with
  | nil => rfl
  | cons x rest ih =>
    have hhead : ((x.2.mapIdx fun i p => ({ order := n + i + 1, unit := p } : SolveVariable)).map
        SolveVariable.order) = List.range' (n + 1) x.2.length := by
      apply List.ext_getElem?
      intro i
      simp only [List.getElem?_map, List.getElem?_mapIdx, Option.map_map, Function.comp_def]
      by_cases hi : i < x.2.length
      · rw [List.getElem?_eq_getElem hi, List.getElem?_range' hi]
        simp only [Option.map_some, Option.some.injEq]
        omega
      · rw [List.getElem?_eq_none (by omega), List.getElem?_eq_none (by simp; omega)]
        rfl
    simp only [pkgSolveAddVariables, List.flatMap_cons, hhead, ih, List.map_cons, List.sum_cons]
    rw [← List.range'_append_1]
    congr 2
    omega

theorem eq_of_order {n : Nat} {items : List (String × List Pkg)}
    {e e' : String × List SolveVariable} {v w : SolveVariable}
    (he : e ∈ pkgSolveAddVariables n items) (he' : e' ∈ pkgSolveAddVariables n items)
    (hv : v ∈ e.2) (hw : w ∈ e'.2) (h : v.order = w.order) : v = w := by
  have hnodup : (((pkgSolveAddVariables n items).flatMap Prod.snd).map
      SolveVariable.order).Nodup := by
    rw [List.map_flatMap, order_addVariables]
    exact List.nodup_range'
  exact List.inj_on_of_nodup_map hnodup (List.mem_flatMap_of_mem he hv)
    (List.mem_flatMap_of_mem he' hw) h

/-! ### Where the rules come from -/

def SolveRule.OfRequest (r : SolveRule) : Prop := r.reason = .request ∨ r.reason = .requestConflict

theorem mem_pairConflicts_reason {reason : RuleReason} {vs : List SolveVariable} {r : SolveRule}
    (h : r ∈ pairConflicts reason vs) : r.reason = reason := by
  induction vs with
  | nil => cases h
  | cons v rest ih =>
    rcases List.mem_append.mp h with h | h
    · obtain ⟨w, -, hw⟩ := List.mem_map.mp h
      rw [← hw]
    · exact ih h

theorem foldl_mark_rules (mark : SolveState → SolveVariable → SolveState)
    (hmark : ∀ st v, (mark st v).rules = st.rules) (vs : List SolveVariable) (st : SolveState) :
    (vs.foldl mark st).rules = st.rules := by
  induction vs generalizing st with
  | nil => rfl
  | cons v rest ih => rw [List.foldl_cons, ih, hmark]

theorem addRequestRule_rules {vars : VariablesByUid} {req : List JobRequestItem} {inverse : Int}
    {st st' : SolveState} (h : pkgSolveAddRequestRule vars req inverse st = some st') :
    ∃ new, st'.rules = st.rules ++ new ∧ ∀ r ∈ new, r.OfRequest := by
  simp only [pkgSolveAddRequestRule, Option.bind_eq_bind, Option.bind_eq_some_iff] at h
  obtain ⟨first, -, reqslice, -, var, -, items, -, h⟩ := h
  have hfold := foldl_mark_rules (fun st v => st.setFlags v.order fun f =>
    { install := f.install || 0 < inverse, top := true }) (fun _ _ => rfl) items
    { st with assumptions := st.assumptions ++ [var.order * inverse] }
  split at h
  · rw [← Option.some.inj h]
    exact ⟨[], by rw [hfold, List.append_nil], by simp⟩
  · split at h
    · rw [← Option.some.inj h]
      refine ⟨_, by rw [SolveState.push, hfold], fun r hr => ?_⟩
      rcases List.mem_cons.mp hr with hr | hr
      · rw [hr]
        exact Or.inl rfl
      · exact Or.inr (mem_pairConflicts_reason hr)
    · cases h

theorem requestRulesOf_rules {vars : VariablesByUid}
    {reqs : List (String × List JobRequestItem)} {inverse : Int} {v : SolveVariable}
    {st st' : SolveState} (h : requestRulesOf vars reqs inverse v st = some st') :
    ∃ new, st'.rules = st.rules ++ new ∧ ∀ r ∈ new, r.OfRequest := by
  rw [requestRulesOf] at h
  cases hl : reqs.lookup v.uid with
  | some req =>
    rw [hl] at h
    exact addRequestRule_rules h
  | none =>
    rw [hl] at h
    rw [← Option.some.inj h]
    exact ⟨[], by simp, by simp⟩

theorem requestRules_rules {j : SolverJobs} {vars : VariablesByUid} {v : SolveVariable}
    {st st' : SolveState} (h : requestRules j vars v st = some st') :
    ∃ new, st'.rules = st.rules ++ new ∧ ∀ r ∈ new, r.OfRequest := by
  rw [requestRules] at h
  split at h
  · rw [← Option.some.inj h]
    exact ⟨[], by simp, by simp⟩
  · obtain ⟨st1, h1, h2⟩ := Option.bind_eq_some_iff.mp h
    obtain ⟨new1, hnew1, hr1⟩ := requestRulesOf_rules h1
    obtain ⟨new2, hnew2, hr2⟩ := requestRulesOf_rules h2
    refine ⟨new1 ++ new2, by rw [hnew2, hnew1, List.append_assoc], fun r hr => ?_⟩
    rcases List.mem_append.mp hr with hr | hr
    · exact hr1 r hr
    · exact hr2 r hr

theorem processUniverseVariable_rules {j : SolverJobs} {vars : VariablesByUid}
    {slice : List SolveVariable} {rest : List SolveVariable} {vi : Nat} {st st' : SolveState}
    (h : pkgSolveProcessUniverseVariable j vars slice rest vi st = some st') :
    ∃ new, st'.rules = st.rules ++ new ∧
      (∀ i v, rest[i]? = some v →
        ∃ rs, variableRules j vars slice v (vi + i) = some rs ∧ ∀ r ∈ rs, r ∈ new) ∧
      ∀ r ∈ new, r.OfRequest ∨ ∃ i v rs, rest[i]? = some v ∧
        variableRules j vars slice v (vi + i) = some rs ∧ r ∈ rs := by
  induction rest generalizing vi st with
  | nil =>
    rw [← Option.some.inj h]
    exact ⟨[], by simp, by simp, by simp⟩
  | cons v rest ih =>
    obtain ⟨st1, h1, h⟩ := Option.bind_eq_some_iff.mp h
    obtain ⟨rules, hrules, h⟩ := Option.bind_eq_some_iff.mp h
    obtain ⟨new1, hnew1, hr1⟩ := requestRules_rules h1
    obtain ⟨new2, hnew2, hfrom2, hr2⟩ := ih h
    refine ⟨new1 ++ rules ++ new2, ?_, fun i w hw => ?_, fun r hr => ?_⟩
    · rw [hnew2, SolveState.push, hnew1]
      simp only [List.append_assoc]
    · cases i with
      | zero =>
        have hwv : v = w := by simpa using hw
        rw [← hwv]
        exact ⟨rules, hrules, fun r hr => by simp [hr]⟩
      | succ i =>
        obtain ⟨rs, hrs, hsub⟩ := hfrom2 i w (by simpa using hw)
        have hidx : vi + (i + 1) = vi + 1 + i := by omega
        rw [hidx]
        exact ⟨rs, hrs, fun r hr => by simp [hsub r hr]⟩
    · simp only [List.mem_append] at hr
      rcases hr with (hr | hr) | hr
      · exact Or.inl (hr1 r hr)
      · exact Or.inr ⟨0, v, rules, rfl, hrules, hr⟩
      · rcases hr2 r hr with hreq | ⟨i, w, rs, hw, hrs, hmem⟩
        · exact Or.inl hreq
        · have hidx : vi + (i + 1) = vi + 1 + i := by omega
          exact Or.inr ⟨i + 1, w, rs, by simpa using hw, by rw [hidx]; exact hrs, hmem⟩

theorem processSlices_rules {j : SolverJobs} {vars : VariablesByUid}
    {slices : List (String × List SolveVariable)} {st st' : SolveState}
    (h : processSlices j vars slices st = some st') :
    ∃ new, st'.rules = st.rules ++ new ∧
      (∀ e ∈ slices, ∀ vi v, e.2[vi]? = some v →
        ∃ rs, variableRules j vars e.2 v vi = some rs ∧ ∀ r ∈ rs, r ∈ new) ∧
      ∀ r ∈ new, r.OfRequest ∨ ∃ e ∈ slices, ∃ vi v rs, e.2[vi]? = some v ∧
        variableRules j vars e.2 v vi = some rs ∧ r ∈ rs := by
  induction slices generalizing st with
  | nil =>
    rw [← Option.some.inj h]
    exact ⟨[], by simp, by simp, by simp⟩
  | cons e rest ih =>
    obtain ⟨st1, h1, h⟩ := Option.bind_eq_some_iff.mp h
    obtain ⟨new1, hnew1, hfrom1, hr1⟩ := processUniverseVariable_rules h1
    obtain ⟨new2, hnew2, hfrom2, hr2⟩ := ih h
    refine ⟨new1 ++ new2, by rw [hnew2, hnew1, List.append_assoc], fun x hx vi v hv => ?_,
      fun r hr => ?_⟩
    · rcases List.mem_cons.mp hx with hx | hx
      · rw [hx] at hv ⊢
        obtain ⟨rs, hrs, hsub⟩ := hfrom1 vi v hv
        rw [Nat.zero_add] at hrs
        exact ⟨rs, hrs, fun r hr => List.mem_append_left _ (hsub r hr)⟩
      · obtain ⟨rs, hrs, hsub⟩ := hfrom2 x hx vi v hv
        exact ⟨rs, hrs, fun r hr => List.mem_append_right _ (hsub r hr)⟩
    · rcases List.mem_append.mp hr with hr | hr
      · rcases hr1 r hr with hreq | ⟨vi, v, rs, hv, hrs, hmem⟩
        · exact Or.inl hreq
        · rw [Nat.zero_add] at hrs
          exact Or.inr ⟨e, List.mem_cons_self, vi, v, rs, hv, hrs, hmem⟩
      · rcases hr2 r hr with hreq | ⟨x, hx, hgen⟩
        · exact Or.inl hreq
        · exact Or.inr ⟨x, List.mem_cons_of_mem _ hx, hgen⟩

theorem holds_impliesItems {σ : Nat → Bool} {reason : RuleReason} {v : SolveVariable}
    {vs : List SolveVariable} :
    SolveRule.Holds σ { reason, items := { var := v, inverse := -1 } ::
      (vs.map fun w => { var := w, inverse := 1 }) } ↔
      (σ v.order = true → ∃ w ∈ vs, σ w.order = true) := by
  have hclause : ({ var := v, inverse := -1 } ::
      (vs.map fun w => ({ var := w, inverse := 1 } : SolveItem))).map SolveItem.literal =
      Clause.implies v.order (vs.map SolveVariable.order) := by
    simp [Clause.implies, Clause.neg, Clause.pos, SolveItem.literal, Function.comp_def]
  rw [SolveRule.Holds, hclause, Clause.holds_implies]
  simp

theorem holds_excludesItems {σ : Nat → Bool} {reason : RuleReason} {v w : SolveVariable} :
    SolveRule.Holds σ { reason, items := [{ var := v, inverse := -1 },
      { var := w, inverse := -1 }] } ↔ ¬ (σ v.order = true ∧ σ w.order = true) := by
  have hclause : ([{ var := v, inverse := -1 }, { var := w, inverse := -1 }] :
      List SolveItem).map SolveItem.literal = Clause.excludes v.order w.order := by
    simp [Clause.excludes, Clause.neg, SolveItem.literal]
  rw [SolveRule.Holds, hclause, Clause.holds_excludes]

theorem holds_choiceItems {σ : Nat → Bool} {reason : RuleReason} {vs : List SolveVariable} :
    SolveRule.Holds σ { reason, items := (vs.map fun w => { var := w, inverse := 1 }) } ↔
      ∃ w ∈ vs, σ w.order = true := by
  have hclause : (vs.map fun w => ({ var := w, inverse := 1 } : SolveItem)).map
      SolveItem.literal = Clause.choice (vs.map SolveVariable.order) := by
    simp [Clause.choice, Clause.pos, SolveItem.literal, Function.comp_def]
  rw [SolveRule.Holds, hclause, Clause.holds_choice]
  simp

theorem map_pairConflicts (reason : RuleReason) (vs : List SolveVariable) :
    (pairConflicts reason vs).map (fun r => r.items.map SolveItem.literal) =
      Clause.excludePairs (vs.map SolveVariable.order) := by
  induction vs with
  | nil => rfl
  | cons v rest ih =>
    simp only [pairConflicts, List.map_append, List.map_cons, Clause.excludePairs, ih]
    congr 1
    simp [Function.comp_def, Clause.excludes, Clause.neg, SolveItem.literal]

theorem holds_pairConflicts {σ : Nat → Bool} {reason : RuleReason} {vs : List SolveVariable} :
    (∀ r ∈ pairConflicts reason vs, r.Holds σ) ↔
      vs.Pairwise fun v w => ¬ (σ v.order = true ∧ σ w.order = true) := by
  have hmap := @Clause.holds_excludePairs _ σ (vs.map SolveVariable.order)
  rw [← map_pairConflicts reason, List.pairwise_map] at hmap
  rw [← hmap]
  simp [SolveRule.Holds]

theorem mem_of_mapM {α β : Type} {f : α → Option β} {l : List α} {bs : List β}
    (h : l.mapM f = some bs) :
    (∀ a ∈ l, ∃ b ∈ bs, f a = some b) ∧ ∀ b ∈ bs, ∃ a ∈ l, f a = some b := by
  induction l generalizing bs with
  | nil =>
    rw [List.mapM_nil] at h
    rw [← Option.some.inj h]
    exact ⟨by simp, by simp⟩
  | cons a l ih =>
    rw [List.mapM_cons] at h
    obtain ⟨b, hb, h⟩ := Option.bind_eq_some_iff.mp h
    obtain ⟨rest, hrest, h⟩ := Option.bind_eq_some_iff.mp h
    rw [← Option.some.inj h]
    obtain ⟨hl, hr⟩ := ih hrest
    refine ⟨fun x hx => ?_, fun y hy => ?_⟩
    · rcases List.mem_cons.mp hx with hx | hx
      · exact ⟨b, List.mem_cons_self, hx ▸ hb⟩
      · obtain ⟨y, hy, hxy⟩ := hl x hx
        exact ⟨y, List.mem_cons_of_mem _ hy, hxy⟩
    · rcases List.mem_cons.mp hy with hy | hy
      · exact ⟨a, List.mem_cons_self, hy ▸ hb⟩
      · obtain ⟨x, hx, hxy⟩ := hr y hy
        exact ⟨x, List.mem_cons_of_mem _ hx, hxy⟩

theorem mem_filterOption {α : Type} {test : α → Option Bool} {l r : List α}
    (h : filterOption test l = some r) {a : α} : a ∈ r ↔ a ∈ l ∧ test a = some true := by
  induction l generalizing r with
  | nil =>
    rw [← Option.some.inj h]
    simp
  | cons x l ih =>
    obtain ⟨b, hb, h⟩ := Option.bind_eq_some_iff.mp h
    obtain ⟨rest, hrest, h⟩ := Option.bind_eq_some_iff.mp h
    rw [← Option.some.inj h]
    have hmem := ih hrest
    cases b with
    | false =>
      simp only [Bool.false_eq_true, if_false, hmem, List.mem_cons]
      constructor
      · intro ha
        exact ⟨Or.inr ha.1, ha.2⟩
      · intro ha
        rcases ha with ⟨hax | hal, ht⟩
        · rw [hax, hb] at ht
          cases ht
        · exact ⟨hal, ht⟩
    | true =>
      simp only [if_true, List.mem_cons, hmem]
      constructor
      · intro ha
        rcases ha with hax | ha
        · exact ⟨Or.inl hax, hax ▸ hb⟩
        · exact ⟨Or.inr ha.1, ha.2⟩
      · intro ha
        rcases ha with ⟨hax | hal, ht⟩
        · exact Or.inl hax
        · exact Or.inr ⟨hal, ht⟩

/-! ### A problem and its rules -/

section Built

variable {j : SolverJobs} {p : SolveProblem}

theorem variables_of_built (h : pkgSolveJobsToSat j = some p) :
    p.variablesByUid = pkgSolveAddVariables 0 j.jobUniverse.items := by
  obtain ⟨st, -, hp⟩ := Option.bind_eq_some_iff.mp h
  rw [← Option.some.inj hp]

theorem slice_of_mem (h : pkgSolveJobsToSat j = some p) {e : String × List SolveVariable}
    (he : e ∈ p.variablesByUid) : p.slice e.1 = e.2 := by
  have hkeys : (p.variablesByUid.map Prod.fst).Nodup := by
    rw [variables_of_built h, keys_addVariables]
    exact j.wellFormed.items_nodup
  rw [SolveProblem.slice, Assoc.lookup_of_mem hkeys he, Option.getD_some]

theorem mem_of_mem_slice {uid : String} {v : SolveVariable} (hv : v ∈ p.slice uid) :
    (uid, p.slice uid) ∈ p.variablesByUid := by
  cases hl : p.variablesByUid.lookup uid with
  | none => simp [SolveProblem.slice, hl] at hv
  | some s => simpa [SolveProblem.slice, hl] using Assoc.mem_of_lookup hl

theorem uid_of_mem (h : pkgSolveJobsToSat j = some p) {e : String × List SolveVariable}
    (he : e ∈ p.variablesByUid) {v : SolveVariable} (hv : v ∈ e.2) : v.uid = e.1 := by
  rw [variables_of_built h] at he
  exact j.wellFormed.chain_uid _ (mem_addVariables he) v.unit (List.mem_map_of_mem hv)

theorem uid_of_mem_slice (h : pkgSolveJobsToSat j = some p) {uid : String} {v : SolveVariable}
    (hv : v ∈ p.slice uid) : v.uid = uid :=
  uid_of_mem h (mem_of_mem_slice hv) hv

theorem mem_own_slice (h : pkgSolveJobsToSat j = some p) {uid : String} {v : SolveVariable}
    (hv : v ∈ p.slice uid) : v ∈ p.slice v.uid := by
  rw [uid_of_mem_slice h hv]
  exact hv

theorem eq_of_mem_slice (h : pkgSolveJobsToSat j = some p) {uid uid' : String}
    {v w : SolveVariable} (hv : v ∈ p.slice uid) (hw : w ∈ p.slice uid')
    (ho : v.order = w.order) : v = w := by
  have hv' := mem_of_mem_slice hv
  have hw' := mem_of_mem_slice hw
  rw [variables_of_built h] at hv' hw'
  exact eq_of_order hv' hw' hv hw ho

theorem variableRules_of_built (h : pkgSolveJobsToSat j = some p) {uid : String} {vi : Nat}
    {v : SolveVariable} (hv : (p.slice uid)[vi]? = some v) :
    ∃ rs, variableRules j p.variablesByUid (p.slice uid) v vi = some rs ∧
      ∀ r ∈ rs, r ∈ p.state.rules := by
  have he := mem_of_mem_slice (List.mem_of_getElem? hv)
  obtain ⟨st, hst, hp⟩ := Option.bind_eq_some_iff.mp h
  have hvars := variables_of_built h
  obtain ⟨new, hnew, hfrom, -⟩ := processSlices_rules hst
  rw [← hvars] at hfrom
  obtain ⟨rs, hrs, hsub⟩ := hfrom _ he vi v hv
  refine ⟨rs, hrs, fun r hr => ?_⟩
  rw [← Option.some.inj hp, hnew]
  exact List.mem_append_right _ (hsub r hr)

theorem mem_variableRules {vars : VariablesByUid} {slice : List SolveVariable} {v : SolveVariable}
    {vi : Nat} {rs : List SolveRule} (h : variableRules j vars slice v vi = some rs)
    {r : SolveRule} : r ∈ rs ↔
      (∃ d ∈ v.unit.depends, r ∈ pkgSolveAddDependRule vars v d) ∨
      (∃ c ∈ v.unit.conflicts, r ∈ pkgSolveAddConflictRule vars v c) ∨
      (∃ s ∈ wantedShlibs j v.unit ++ v.unit.requires, ∃ rs,
        pkgSolveAddRequireRule j vars v s = some rs ∧ r ∈ rs) ∨
      ((v.unit.vital && addVital j) = true ∧ r ∈ pkgSolveAddVitalRule slice) ∨
      ((vi = 0 ∧ 1 < slice.length) ∧ r ∈ pkgSolveAddChainRule slice) := by
  obtain ⟨requires, hreq, h⟩ := Option.bind_eq_some_iff.mp h
  obtain ⟨hto, hfrom⟩ := mem_of_mapM hreq
  have hflat : r ∈ requires.flatten ↔ ∃ s ∈ wantedShlibs j v.unit ++ v.unit.requires, ∃ rs,
      pkgSolveAddRequireRule j vars v s = some rs ∧ r ∈ rs := by
    rw [List.mem_flatten]
    constructor
    · intro hr
      obtain ⟨rs, hrs, hr⟩ := hr
      obtain ⟨s, hs, hsrs⟩ := hfrom rs hrs
      exact ⟨s, hs, rs, hsrs, hr⟩
    · intro hr
      obtain ⟨s, hs, rs, hsrs, hr⟩ := hr
      obtain ⟨rs', hrs', hsrs'⟩ := hto s hs
      rw [hsrs] at hsrs'
      exact ⟨rs', hrs', Option.some.inj hsrs' ▸ hr⟩
  have hif (c : Prop) [Decidable c] (l : List SolveRule) :
      r ∈ (if c then l else []) ↔ c ∧ r ∈ l := by
    by_cases hc : c <;> simp [hc]
  rw [← Option.some.inj h]
  simp only [List.mem_append, List.mem_flatMap, hflat, hif, Bool.and_eq_true, decide_eq_true_eq,
    or_assoc]

theorem mem_rules_of_ruleOf (h : pkgSolveJobsToSat j = some p) {r : SolveRule}
    (hr : p.RuleOf j r) : r ∈ p.state.rules := by
  have hmem {v : SolveVariable} (hv : v ∈ p.slice v.uid) : ∃ vi rs,
      variableRules j p.variablesByUid (p.slice v.uid) v vi = some rs ∧
      ∀ r ∈ rs, r ∈ p.state.rules := by
    obtain ⟨vi, hvi⟩ := List.mem_iff_getElem?.mp hv
    exact ⟨vi, variableRules_of_built h hvi⟩
  cases hr with
  | depend hv hd hr =>
    obtain ⟨vi, rs, hrs, hsub⟩ := hmem hv
    exact hsub r ((mem_variableRules hrs).mpr (Or.inl ⟨_, hd, hr⟩))
  | conflict hv hc hr =>
    obtain ⟨vi, rs, hrs, hsub⟩ := hmem hv
    exact hsub r ((mem_variableRules hrs).mpr (Or.inr (Or.inl ⟨_, hc, hr⟩)))
  | require hv hs hrs' hr =>
    obtain ⟨vi, rs, hrs, hsub⟩ := hmem hv
    exact hsub r ((mem_variableRules hrs).mpr (Or.inr (Or.inr (Or.inl ⟨_, hs, _, hrs', hr⟩))))
  | vital hv hvital hr =>
    obtain ⟨vi, rs, hrs, hsub⟩ := hmem hv
    exact hsub r ((mem_variableRules hrs).mpr
      (Or.inr (Or.inr (Or.inr (Or.inl ⟨hvital, hr⟩)))))
  | chain hr =>
    rename_i uid
    cases hs : p.slice uid with
    | nil => simp [hs, pkgSolveAddChainRule, pairConflicts] at hr
    | cons v rest =>
      cases rest with
      | nil => simp [hs, pkgSolveAddChainRule, pairConflicts] at hr
      | cons w rest =>
        obtain ⟨rs, hrs, hsub⟩ := @variableRules_of_built j p h uid 0 v (by rw [hs]; rfl)
        have hlen : 1 < (p.slice uid).length := by rw [hs]; simp
        exact hsub r ((mem_variableRules hrs).mpr
          (Or.inr (Or.inr (Or.inr (Or.inr ⟨⟨rfl, hlen⟩, hr⟩)))))

theorem ruleOf_of_mem_rules (h : pkgSolveJobsToSat j = some p) {r : SolveRule}
    (hr : r ∈ p.state.rules) : r.OfRequest ∨ p.RuleOf j r := by
  obtain ⟨st, hst, hp⟩ := Option.bind_eq_some_iff.mp h
  have hvars := variables_of_built h
  obtain ⟨new, hnew, -, hall⟩ := processSlices_rules hst
  have hrnew : r ∈ new := by
    rw [← Option.some.inj hp, hnew] at hr
    simpa using hr
  rw [← hvars] at hall
  rcases hall r hrnew with hreq | ⟨e, he, vi, v, rs, hv, hrs, hmem⟩
  · exact Or.inl hreq
  · have hmemv : v ∈ e.2 := List.mem_of_getElem? hv
    have huid := uid_of_mem h he hmemv
    have hslice : p.slice v.uid = e.2 := by rw [huid, slice_of_mem h he]
    rw [← hslice] at hmemv hrs
    apply Or.inr
    rcases (mem_variableRules hrs).mp hmem with ⟨d, hd, hr⟩ | ⟨c, hc, hr⟩ | ⟨s, hs, rs', hrs', hr⟩ |
      ⟨hvital, hr⟩ | ⟨-, hr⟩
    · exact .depend hmemv hd hr
    · exact .conflict hmemv hc hr
    · exact .require hmemv hs hrs' hr
    · exact .vital hmemv hvital hr
    · exact .chain hr

theorem requireRule_of_built (h : pkgSolveJobsToSat j = some p) {v : SolveVariable}
    (hv : v ∈ p.slice v.uid) {s : String} (hs : s ∈ wantedShlibs j v.unit ++ v.unit.requires) :
    ∃ rs, pkgSolveAddRequireRule j p.variablesByUid v s = some rs := by
  obtain ⟨vi, hvi⟩ := List.mem_iff_getElem?.mp hv
  obtain ⟨rs, hrs, -⟩ := variableRules_of_built h hvi
  obtain ⟨requires, hreq, -⟩ := Option.bind_eq_some_iff.mp hrs
  obtain ⟨rs', -, hrs'⟩ := (mem_of_mapM hreq).1 s hs
  exact ⟨rs', hrs'⟩

end Built

end NextBSD.Libpkg
