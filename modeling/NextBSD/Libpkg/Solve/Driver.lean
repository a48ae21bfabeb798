import NextBSD.Library.Run
import NextBSD.Libpkg.Solve.Rules

/-!
# Driving the SAT solver

`pkg_solve_sat_problem`, with the solver and the user as parameters.  The phases and the importance
of the variables, and the flags that only choose these, are hints to the solver; it answers here as
it likes, so they are left out.
-/

namespace NextBSD.Libpkg

def SolveProblem.variables (p : SolveProblem) : List SolveVariable :=
  p.variablesByUid.flatMap Prod.snd

/-- `problem->variables[abs(lit) - 1]`. -/
def SolveProblem.variableOf (p : SolveProblem) (lit : Int) : Option SolveVariable :=
  if lit = 0 then none else p.variables[lit.natAbs - 1]?

namespace Driver

/-- What the solver answers: the values that `picosat_deref` gives, or what
`picosat_failed_assumptions` lists in front of the terminator. -/
inductive Answer where
  | satisfiable (deref : Nat → Int)
  | unsatisfiable (failed : List Int)

inductive Event where
  | cannotRemove (uid requiredBy : String)
  | anotherPlan
  | cannotSolve
  | query (rules : List SolveRule) (install : Bool) (uid : String)
  deriving DecidableEq, Repr

/-- The flags of the variables by their `order`, the assumptions for the next call of the solver,
and the counters. -/
structure State where
  flags : Nat → VarFlags
  failed : Nat → Bool := fun _ => false
  assumptions : List Int
  iter : Nat := 0
  attempt : Nat := 0
  events : List Event := []

inductive Fault where
  /-- `*failed` is read before the start of the list. -/
  | beforeStart
  /-- There is no variable of that number. -/
  | noVariable
  deriving DecidableEq, Repr

/-- `var->flags |= PKG_VAR_FAILED`. -/
def State.fail (st : State) (var : SolveVariable) : State :=
  { st with failed := fun n => n = var.order || st.failed n }

/-- `pkg_solve_picosat_iter`: the flag stays at the variables of requests, and the call uses up the
assumptions. -/
def State.called (st : State) : State :=
  { st with failed := fun n => st.failed n && (st.flags n).top, assumptions := [] }

section

variable (j : SolverJobs) (p : SolveProblem)

def vitalDependents (var : SolveVariable) : List SolveVariable :=
  p.state.rules.reverse.filterMap fun rule =>
    if rule.reason ≠ .depend then none
    else
      match (rule.items.filter fun item => item.inverse = -1).getLast? with
      | none => none
      | some dep =>
        if (rule.items.any fun item => item.inverse ≠ -1 && item.var.uid = var.uid) &&
            dep.var.unit.vital then some dep.var
        else none

def rulesShown (var : SolveVariable) : List SolveRule :=
  p.state.rules.reverse.filter fun rule =>
    rule.reason ≠ .depend && rule.items.any fun item => item.var = var

/-- The branch for an unsatisfiable problem.  From the tenth attempt on the user decides about the
last of the assumptions that failed. -/
def giveUp (user : State → Bool) (st : State) (failed : List Int) : Except Fault State :=
  let st := { st with attempt := st.attempt + 1 }
  match failed.getLast? with
  | none => .error .beforeStart
  | some lit =>
    match p.variableOf lit with
    | none => .error .noVariable
    | some var =>
      if 10 ≤ st.attempt then
        let asked := { st with
          events := st.events ++ [.cannotSolve,
            .query (rulesShown p var) (st.flags var.order).install var.uid] }
        .ok (if user asked then asked.fail var else asked)
      else
        let vital := (vitalDependents p var).map fun dep => Event.cannotRemove var.uid dep.uid
        let told := { st with
          events := st.events ++ if vital = [] then [Event.anotherPlan] else vital }
        .ok (told.fail var)

def assign (deref : Nat → Int) (st : State) : State :=
  { st with
    flags := fun n =>
      if n ∈ p.variables.map SolveVariable.order then
        { st.flags n with install := 0 < deref n }
      else st.flags n }

/-- The variable is left out, and with it an installed package of which nothing is to be
installed. -/
def deletesLocal (st : State) (lvar : SolveVariable) : Bool :=
  let lslice := (p.variablesByUid.lookup lvar.uid).getD []
  !(st.flags lvar.order).install && !(lslice.any fun cur => (st.flags cur.order).install) &&
    lslice.any fun cur => cur.unit.type = .installed

def reiterates (st : State) : Bool :=
  (j.type = .install || j.type = .upgrade) && st.iter = 0 && p.variables.any (deletesLocal p st)

def markSlices (st : State) : State :=
  { st with
    failed := fun n =>
      st.failed n || p.variables.any fun lvar =>
        deletesLocal p st lvar &&
          ((p.variablesByUid.lookup lvar.uid).getD []).any fun cur => cur.order = n }

/-- What is done before `goto reiterate`: the assumptions are restored, and those that failed are
turned around. -/
def restore (st : State) : State :=
  let flags := fun n =>
    if (st.flags n).top && st.failed n then { st.flags n with install := !(st.flags n).install }
    else st.flags n
  { st with
    flags := flags
    failed := fun n => st.failed n && !(st.flags n).top
    assumptions := st.assumptions ++
      (p.variables.filter fun lvar => (st.flags lvar.order).top).map fun lvar =>
        if (flags lvar.order).install then (lvar.order : Int) else -lvar.order
    iter := st.iter + 1 }

/-- From `reiterate` to the next one, or out of the function. -/
def round (oracle : State → Answer) (user : State → Bool) (st : State) :
    State ⊕ Except Fault State :=
  match oracle st with
  | .unsatisfiable failed =>
    match giveUp p user st.called failed with
    | .error fault => .inr (.error fault)
    | .ok st => .inl (restore p st)
  | .satisfiable deref =>
    let st := assign p deref st.called
    if reiterates j p st then .inl (restore p (markSlices p st)) else .inr (.ok st)

/-- The problem as `pkg_solve_jobs_to_sat` leaves it. -/
def start : State := { flags := p.state.flags, assumptions := p.state.assumptions }

/-- `pkg_solve_sat_problem` returns, and no more than ten attempts have failed. -/
def Solves (oracle : State → Answer) (user : State → Bool) : Prop :=
  ∃ st, Rounds.Returns (round j p oracle user) (start p) (.ok st) ∧ st.attempt ≤ 10

end

def Honest (oracle : State → Answer) : Prop :=
  ∀ st failed, oracle st = .unsatisfiable failed → ∀ lit ∈ failed, lit ∈ st.assumptions

/-! The variables of a problem. -/

section Built

variable {j : SolverJobs} {p : SolveProblem}

theorem order_variables (h : pkgSolveJobsToSat j = some p) :
    p.variables.map SolveVariable.order = List.range' 1 p.variables.length := by
  have hmap : p.variables.map SolveVariable.order =
      List.range' 1 ((j.jobUniverse.items.map fun e => e.2.length).sum) := by
    unfold SolveProblem.variables
    rw [List.map_flatMap, variables_of_built h, order_addVariables]
  have hlen := congrArg List.length hmap
  rw [List.length_map, List.length_range'] at hlen
  rw [hmap, hlen]

def IsLiteral (p : SolveProblem) (lit : Int) : Prop := ∃ v ∈ p.variables, lit.natAbs = v.order

theorem variableOf_of_isLiteral (h : pkgSolveJobsToSat j = some p) {lit : Int}
    (hlit : IsLiteral p lit) : ∃ v, p.variableOf lit = some v := by
  obtain ⟨v, hv, habs⟩ := hlit
  have hmem : v.order ∈ List.range' 1 p.variables.length := by
    rw [← order_variables h]
    exact List.mem_map_of_mem hv
  obtain ⟨hlo, hhi⟩ := List.mem_range'_1.mp hmem
  have hne : lit ≠ 0 := by omega
  have hlt : lit.natAbs - 1 < p.variables.length := by omega
  refine ⟨p.variables[lit.natAbs - 1], ?_⟩
  unfold SolveProblem.variableOf
  rw [if_neg hne, List.getElem?_eq_getElem hlt]

end Built

/-! The assumptions of the requests. -/

section Requests

variable {j : SolverJobs} {vars : VariablesByUid}

def Literals (vars : VariablesByUid) (assumptions : List Int) : Prop :=
  ∀ lit ∈ assumptions, ∃ v ∈ vars.flatMap Prod.snd, lit.natAbs = v.order

theorem foldl_mark_assumptions (mark : SolveState → SolveVariable → SolveState)
    (hmark : ∀ st v, (mark st v).assumptions = st.assumptions) (vs : List SolveVariable)
    (st : SolveState) : (vs.foldl mark st).assumptions = st.assumptions := by
  induction vs generalizing st with
  | nil => rfl
  | cons v rest ih => rw [List.foldl_cons, ih, hmark]

theorem literals_addRequestRule {req : List JobRequestItem} {inverse : Int}
    (hinv : inverse.natAbs = 1) {st st' : SolveState} (hst : Literals vars st.assumptions)
    (h : pkgSolveAddRequestRule vars req inverse st = some st') :
    Literals vars st'.assumptions := by
  simp only [pkgSolveAddRequestRule, Option.bind_eq_bind, Option.bind_eq_some_iff] at h
  obtain ⟨first, -, reqslice, hslice, var, hvar, items, -, h⟩ := h
  have hmem : var ∈ vars.flatMap Prod.snd :=
    List.mem_flatMap.mpr ⟨(first.pkg.uid, reqslice), Assoc.mem_of_lookup hslice,
      List.mem_of_getElem? hvar⟩
  have hnew : Literals vars (st.assumptions ++ [var.order * inverse]) := by
    intro lit hlit
    rcases List.mem_append.mp hlit with hlit | hlit
    · exact hst lit hlit
    · rw [List.mem_singleton.mp hlit]
      exact ⟨var, hmem, by rw [Int.natAbs_mul, hinv, Nat.mul_one, Int.natAbs_natCast]⟩
  have hfold := foldl_mark_assumptions (fun st v => st.setFlags v.order fun f =>
    { install := f.install || 0 < inverse, top := true }) (fun _ _ => rfl) items
    { st with assumptions := st.assumptions ++ [var.order * inverse] }
  split at h
  · rw [← Option.some.inj h, hfold]
    exact hnew
  · split at h
    · rw [← Option.some.inj h, SolveState.push, hfold]
      exact hnew
    · cases h

theorem literals_requestRulesOf {reqs : List (String × List JobRequestItem)} {inverse : Int}
    (hinv : inverse.natAbs = 1) {v : SolveVariable} {st st' : SolveState}
    (hst : Literals vars st.assumptions) (h : requestRulesOf vars reqs inverse v st = some st') :
    Literals vars st'.assumptions := by
  rw [requestRulesOf] at h
  split at h
  · exact literals_addRequestRule hinv hst h
  · rw [← Option.some.inj h]
    exact hst

theorem literals_requestRules {v : SolveVariable} {st st' : SolveState}
    (hst : Literals vars st.assumptions) (h : requestRules j vars v st = some st') :
    Literals vars st'.assumptions := by
  rw [requestRules] at h
  split at h
  · rw [← Option.some.inj h]
    exact hst
  · obtain ⟨st₁, h₁, h₂⟩ := Option.bind_eq_some_iff.mp h
    exact literals_requestRulesOf rfl (literals_requestRulesOf rfl hst h₁) h₂

theorem literals_processUniverseVariable {slice rest : List SolveVariable} {vi : Nat}
    {st st' : SolveState} (hst : Literals vars st.assumptions)
    (h : pkgSolveProcessUniverseVariable j vars slice rest vi st = some st') :
    Literals vars st'.assumptions := by
  induction rest generalizing vi st with
  | nil =>
    rw [← Option.some.inj h]
    exact hst
  | cons v rest ih =>
    obtain ⟨st₁, h₁, h⟩ := Option.bind_eq_some_iff.mp h
    obtain ⟨rules, -, h⟩ := Option.bind_eq_some_iff.mp h
    have h₂ : Literals vars st₁.assumptions := literals_requestRules hst h₁
    exact ih (show Literals vars (st₁.push rules).assumptions from h₂) h

theorem literals_processSlices {slices : List (String × List SolveVariable)} {st st' : SolveState}
    (hst : Literals vars st.assumptions) (h : processSlices j vars slices st = some st') :
    Literals vars st'.assumptions := by
  induction slices generalizing st with
  | nil =>
    rw [← Option.some.inj h]
    exact hst
  | cons e rest ih =>
    obtain ⟨st₁, h₁, h⟩ := Option.bind_eq_some_iff.mp h
    exact ih (literals_processUniverseVariable hst h₁) h

end Requests

section Built

variable {j : SolverJobs} {p : SolveProblem} {oracle : State → Answer} {user : State → Bool}

theorem isLiteral_of_built (h : pkgSolveJobsToSat j = some p) :
    ∀ lit ∈ p.state.assumptions, IsLiteral p lit := by
  obtain ⟨st, hst, hp⟩ := Option.bind_eq_some_iff.mp h
  rw [← Option.some.inj hp]
  exact literals_processSlices (fun _ h => absurd h List.not_mem_nil) hst

/-! What a round does. -/

/-- The assumptions are literals of the problem, and no round is made without a failed attempt but
for one. -/
structure Inv (p : SolveProblem) (st : State) : Prop where
  assumptions : ∀ lit ∈ st.assumptions, IsLiteral p lit
  iter : st.iter ≤ st.attempt + 1

theorem natAbs_literal (b : Bool) (n : Nat) : (if b then (n : Int) else -n).natAbs = n := by
  cases b <;> simp

theorem inv_restore {st : State} (hassume : st.assumptions = []) (hiter : st.iter ≤ st.attempt) :
    Inv p (restore p st) where
  assumptions := by
    intro lit hlit
    unfold restore at hlit
    dsimp only at hlit
    rw [hassume, List.nil_append] at hlit
    obtain ⟨v, hv, rfl⟩ := List.mem_map.mp hlit
    exact ⟨v, List.mem_of_mem_filter hv, natAbs_literal _ _⟩
  iter := by
    show st.iter + 1 ≤ st.attempt + 1
    omega

theorem giveUp_ok {st st' : State} {failed : List Int} (h : giveUp p user st failed = .ok st') :
    st'.attempt = st.attempt + 1 ∧ st'.iter = st.iter ∧ st'.assumptions = st.assumptions := by
  unfold giveUp at h
  dsimp only at h
  split at h
  · cases h
  · split at h
    · cases h
    · split at h
      · cases h
        split <;> exact ⟨rfl, rfl, rfl⟩
      · cases h
        exact ⟨rfl, rfl, rfl⟩

theorem giveUp_nil (st : State) : giveUp p user st [] = .error .beforeStart := rfl

theorem giveUp_of_ne_nil (user : State → Bool) (h : pkgSolveJobsToSat j = some p) (st : State)
    {failed : List Int} (hne : failed ≠ []) (hlit : ∀ lit ∈ failed, IsLiteral p lit) :
    ∃ st', giveUp p user st failed = .ok st' := by
  have hlast := List.getLast?_eq_some_getLast hne
  obtain ⟨v, hv⟩ := variableOf_of_isLiteral h (hlit _ (List.getLast_mem hne))
  unfold giveUp
  dsimp only
  rw [hlast]
  dsimp only
  rw [hv]
  dsimp only
  split
  · exact ⟨_, rfl⟩
  · exact ⟨_, rfl⟩

/-- A round that leads to another one: the solver refused and named an assumption, or a package would
be deleted on the way. -/
theorem round_next {st st' : State} (hinv : Inv p st)
    (hstep : round j p oracle user st = .inl st') :
    Inv p st' ∧ st'.iter = st.iter + 1 ∧
      ((∃ failed, oracle st = .unsatisfiable failed ∧ failed ≠ []) ∧ st'.attempt = st.attempt + 1 ∨
        (∃ deref, oracle st = .satisfiable deref) ∧ st'.attempt = st.attempt) := by
  unfold round at hstep
  cases horacle : oracle st with
  | unsatisfiable failed =>
    rw [horacle] at hstep
    dsimp only at hstep
    cases hok : giveUp p user st.called failed with
    | error fault =>
      rw [hok] at hstep
      cases hstep
    | ok s =>
      rw [hok] at hstep
      cases hstep
      obtain ⟨hattempt, hiter, hassume⟩ := giveUp_ok hok
      have hcount : s.iter ≤ s.attempt := by
        rw [hattempt, hiter]
        exact hinv.iter
      have hiter' : (restore p s).iter = st.iter + 1 := congrArg (· + 1) hiter
      refine ⟨inv_restore hassume hcount, hiter', .inl ⟨⟨failed, rfl, ?_⟩, hattempt⟩⟩
      rintro rfl
      rw [giveUp_nil] at hok
      cases hok
  | satisfiable deref =>
    rw [horacle] at hstep
    dsimp only at hstep
    split at hstep
    · next hre =>
      cases hstep
      have hzero : st.iter = 0 := by
        unfold reiterates at hre
        simp only [Bool.and_eq_true, decide_eq_true_eq] at hre
        exact hre.1.2
      have hcount : st.iter ≤ st.attempt := by omega
      exact ⟨inv_restore rfl hcount, rfl, .inr ⟨⟨deref, rfl⟩, rfl⟩⟩
    · cases hstep

/-- A round that leaves the function: with the fault if the solver names nothing, else with values for
the variables. -/
theorem round_stop (h : pkgSolveJobsToSat j = some p) (hhonest : Honest oracle) {st : State}
    (hinv : Inv p st) {out : Except Fault State} (hstep : round j p oracle user st = .inr out) :
    oracle st = .unsatisfiable [] ∧ out = .error .beforeStart ∨
      ∃ deref st', oracle st = .satisfiable deref ∧ out = .ok st' ∧ st'.attempt = st.attempt := by
  unfold round at hstep
  cases horacle : oracle st with
  | unsatisfiable failed =>
    rw [horacle] at hstep
    dsimp only at hstep
    by_cases hnil : failed = []
    · subst hnil
      rw [giveUp_nil] at hstep
      cases hstep
      exact .inl ⟨rfl, rfl⟩
    · have hlit : ∀ lit ∈ failed, IsLiteral p lit :=
        fun lit hl => hinv.assumptions lit (hhonest st failed horacle lit hl)
      obtain ⟨s, hok⟩ := giveUp_of_ne_nil user h st.called hnil hlit
      rw [hok] at hstep
      cases hstep
  | satisfiable deref =>
    rw [horacle] at hstep
    dsimp only at hstep
    split at hstep
    · cases hstep
    · cases hstep
      exact .inr ⟨deref, _, rfl, rfl, rfl⟩

/-! Runs. -/

/-- Every answer that the problem is not satisfiable names an assumption, and it is given while
fewer than ten attempts have failed. -/
def Cooperates (j : SolverJobs) (p : SolveProblem) (oracle : State → Answer) (user : State → Bool) :
    Prop :=
  ∀ st, Rounds.Reaches (round j p oracle user) (start p) st → ∀ failed,
    oracle st = .unsatisfiable failed → failed ≠ [] ∧ st.attempt < 10

theorem inv_of_reaches (h : pkgSolveJobsToSat j = some p) {st : State}
    (hst : Rounds.Reaches (round j p oracle user) (start p) st) : Inv p st :=
  hst.invariant ⟨isLiteral_of_built h, Nat.zero_le _⟩ fun _ hinv hstep => (round_next hinv hstep).1

theorem attempt_of_reaches {st st' : State} (hinv : Inv p st)
    (hst : Rounds.Reaches (round j p oracle user) st st') : Inv p st' ∧ st.attempt ≤ st'.attempt := by
  refine hst.invariant (P := fun st' => Inv p st' ∧ st.attempt ≤ st'.attempt)
    ⟨hinv, Nat.le_refl _⟩ ?_
  rintro t t' - ⟨hinv, hle⟩ hstep
  obtain ⟨hinv', -, ⟨-, hattempt⟩ | ⟨-, hattempt⟩⟩ := round_next hinv hstep
  · exact ⟨hinv', by omega⟩
  · exact ⟨hinv', by omega⟩

theorem not_noVariable (h : pkgSolveJobsToSat j = some p) (hhonest : Honest oracle) :
    ¬ Rounds.Returns (round j p oracle user) (start p) (.error .noVariable) := by
  intro hret
  obtain ⟨st, hst, hstop⟩ := hret.reaches
  rcases round_stop h hhonest (inv_of_reaches h hst) hstop with ⟨-, hout⟩ | ⟨_, _, -, hout, -⟩
  · cases hout
  · cases hout

theorem Cooperates.attempt_le (h : pkgSolveJobsToSat j = some p)
    (hco : Cooperates j p oracle user) {st : State}
    (hst : Rounds.Reaches (round j p oracle user) (start p) st) : st.attempt ≤ 10 := by
  refine hst.invariant (P := fun st => st.attempt ≤ 10) (Nat.zero_le _) ?_
  intro t t' ht hle hstep
  obtain ⟨-, -, ⟨⟨failed, horacle, -⟩, hattempt⟩ | ⟨-, hattempt⟩⟩ :=
    round_next (inv_of_reaches h ht) hstep
  · have := (hco t ht failed horacle).2
    omega
  · omega

theorem Cooperates.solves (h : pkgSolveJobsToSat j = some p) (hhonest : Honest oracle)
    (hco : Cooperates j p oracle user) : Solves j p oracle user := by
  -- the count of the rounds stays below twelve
  obtain ⟨out, hout⟩ : ∃ out, Rounds.Returns (round j p oracle user) (start p) out := by
    refine Rounds.exists_returns (fun st => 12 - st.iter) ?_
    intro t t' ht hstep
    have hinv := inv_of_reaches h ht
    have hle := hco.attempt_le h ht
    have hiter := (round_next hinv hstep).2.1
    have := hinv.iter
    omega
  obtain ⟨st, hst, hstop⟩ := hout.reaches
  rcases round_stop h hhonest (inv_of_reaches h hst) hstop with
    ⟨horacle, -⟩ | ⟨_, st', -, rfl, hattempt⟩
  · exact absurd rfl (hco st hst [] horacle).1
  · have hle := hco.attempt_le h hst
    exact ⟨st', hout, by omega⟩

theorem cooperates_of_solves (h : pkgSolveJobsToSat j = some p) (hhonest : Honest oracle)
    (hsolves : Solves j p oracle user) : Cooperates j p oracle user := by
  obtain ⟨stEnd, hret, hle⟩ := hsolves
  intro st hst failed horacle
  have hinv := inv_of_reaches h hst
  have hhere := hst.returns_iff.mp hret
  cases hstep : round j p oracle user st with
  | inr out =>
    cases (Rounds.returns_of_stop hstep).mp hhere
    rcases round_stop h hhonest hinv hstep with ⟨-, hout⟩ | ⟨_, _, hsat, -⟩
    · cases hout
    · rw [horacle] at hsat
      cases hsat
  | inl s =>
    obtain ⟨hinv', -, ⟨⟨failed', horacle', hne⟩, hattempt⟩ | ⟨⟨_, hsat⟩, -⟩⟩ :=
      round_next hinv hstep
    · rw [horacle] at horacle'
      cases horacle'
      obtain ⟨t, ht, hstop⟩ := ((Rounds.returns_of_next hstep).mp hhere).reaches
      obtain ⟨hinvt, hmono⟩ := attempt_of_reaches hinv' ht
      rcases round_stop h hhonest hinvt hstop with ⟨-, hout⟩ | ⟨_, _, -, hout, hsame⟩
      · cases hout
      · cases hout
        exact ⟨hne, by omega⟩
    · rw [horacle] at hsat
      cases hsat

/-- No run reads outside the variables, and a run returns before an eleventh attempt if and only if
the solver names an assumption with each of its refusals and makes no more than ten of them. -/
theorem pkgSolveSatProblem_iff (h : pkgSolveJobsToSat j = some p) (hhonest : Honest oracle)
    (user : State → Bool) :
    ¬ Rounds.Returns (round j p oracle user) (start p) (.error .noVariable) ∧
      (Solves j p oracle user ↔ Cooperates j p oracle user) :=
  ⟨not_noVariable h hhonest, cooperates_of_solves h hhonest, Cooperates.solves h hhonest⟩

/-! A solver that refuses every time. -/

def Requested (p : SolveProblem) (st : State) : Prop :=
  st.assumptions ≠ [] ∧ ∃ v ∈ p.variables, (st.flags v.order).top = true

theorem requested_restore {st : State} (h : ∃ v ∈ p.variables, (st.flags v.order).top = true) :
    Requested p (restore p st) := by
  obtain ⟨v, hv, htop⟩ := h
  constructor
  · have hmem : v ∈ p.variables.filter fun lvar => (st.flags lvar.order).top :=
      List.mem_filter.mpr ⟨hv, htop⟩
    exact List.append_ne_nil_of_right_ne_nil _
      (List.ne_nil_of_mem (List.mem_map_of_mem hmem))
  · refine ⟨v, hv, ?_⟩
    unfold restore
    dsimp only
    split
    · exact htop
    · exact htop

theorem giveUp_flags {st st' : State} {failed : List Int} (h : giveUp p user st failed = .ok st') :
    st'.flags = st.flags := by
  unfold giveUp at h
  dsimp only at h
  split at h
  · cases h
  · split at h
    · cases h
    · split at h
      · cases h
        split <;> rfl
      · cases h
        rfl

theorem endless (h : pkgSolveJobsToSat j = some p) (hreq : Requested p (start p))
    (user : State → Bool) (out : Except Fault State) :
    ¬ Rounds.Returns (round j p (fun st => .unsatisfiable st.assumptions) user) (start p) out := by
  have hhonest : Honest fun st => .unsatisfiable st.assumptions := by
    intro st failed heq lit hlit
    cases heq
    exact hlit
  have hnext : ∀ {st}, Inv p st → Requested p st → ∃ st', round j p
      (fun st => .unsatisfiable st.assumptions) user st = .inl (restore p st') ∧
        st'.flags = st.flags := by
    intro st hinv hst
    obtain ⟨st', hok⟩ := giveUp_of_ne_nil user h st.called hst.1 hinv.assumptions
    have hflags : st'.flags = st.called.flags := giveUp_flags hok
    refine ⟨st', ?_, hflags⟩
    unfold round
    dsimp only
    rw [hok]
  have hreached : ∀ {st}, Rounds.Reaches (round j p (fun st => .unsatisfiable st.assumptions) user)
      (start p) st → Requested p st := by
    intro st hst
    refine hst.invariant hreq ?_
    intro t t' ht hreq hstep
    obtain ⟨s, hround, hflags⟩ := hnext (inv_of_reaches h ht) hreq
    rw [hround] at hstep
    cases hstep
    exact requested_restore (by rw [hflags]; exact hreq.2)
  refine Rounds.not_returns fun {t} ht => ?_
  obtain ⟨s, hround, -⟩ := hnext (inv_of_reaches h ht) (hreached ht)
  exact ⟨_, hround⟩

end Built

/-- Two installed packages that conflict with each other, neither of which may go. -/
def vitalConflictJobs : SolverJobs where
  type := .install
  jobUniverse :=
    { items := [("a", [{ type := .installed, name := "a", uid := "a", vital := true,
                         conflicts := [{ uid := "b" }] }]),
        ("b", [{ type := .installed, name := "b", uid := "b", vital := true }])] }
  wellFormed := ⟨by decide, by decide, by decide⟩

def vitalConflict : SolveProblem := (pkgSolveJobsToSat vitalConflictJobs).getD ⟨[], {}⟩

def deleteJobs : SolverJobs where
  type := .deinstall
  requestDelete := [("a", [⟨{ type := .installed, name := "a", uid := "a" }, 0⟩])]
  jobUniverse := { items := [("a", [{ type := .installed, name := "a", uid := "a" }])] }
  wellFormed := ⟨by decide, by decide, by decide⟩

def deleteProblem : SolveProblem := (pkgSolveJobsToSat deleteJobs).getD ⟨[], {}⟩

/-- A solver that refuses the request once. -/
theorem pkgSolveSatProblem_iff_delete :
    Solves deleteJobs deleteProblem
      (fun st => if st.attempt = 0 ∧ st.assumptions ≠ [] then .unsatisfiable st.assumptions
        else .satisfiable fun _ => 1) (fun _ => true) := by
  refine (pkgSolveSatProblem_iff rfl ?_ _).2.mpr ?_
  · intro st failed heq lit hlit
    dsimp only at heq
    split at heq
    · cases heq
      exact hlit
    · cases heq
  · intro st _ failed heq
    dsimp only at heq
    split at heq
    · next h =>
      cases heq
      exact ⟨h.2, by omega⟩
    · cases heq

/-- Where no plan keeps the rules there is no assumption to name, and the list is read before its
start.  While the solver refuses a request the loop does not end. -/
theorem pkgSolveSatProblem_fails :
    (∀ σ, ¬ ∀ r ∈ vitalConflict.state.rules, r.Holds σ) ∧
      (∀ user, Rounds.Returns
        (round vitalConflictJobs vitalConflict (fun _ => .unsatisfiable []) user)
        (start vitalConflict) (.error .beforeStart)) ∧
      (∀ user out, ¬ Rounds.Returns (round deleteJobs deleteProblem
        (fun st => .unsatisfiable st.assumptions) user) (start deleteProblem) out) ∧
      ¬ ∀ j p oracle user, pkgSolveJobsToSat j = some p → Honest oracle →
        Solves j p oracle user := by
  have hread : ∀ user, Rounds.Returns
      (round vitalConflictJobs vitalConflict (fun _ => .unsatisfiable []) user)
      (start vitalConflict) (.error .beforeStart) := fun user => ⟨1, rfl⟩
  refine ⟨?_, hread, fun user out => endless rfl ⟨by decide, by decide⟩ user out, fun hall => ?_⟩
  · intro σ hσ
    have hclause : ∀ c ∈ [Clause.excludes 1 2, [Clause.pos 1], [Clause.pos 2]],
        c ∈ vitalConflict.state.rules.map fun r => r.items.map SolveItem.literal := by decide
    have hholds : ∀ c ∈ [Clause.excludes 1 2, [Clause.pos 1], [Clause.pos 2]],
        Clause.Holds σ c := by
      intro c hc
      obtain ⟨r, hr, rfl⟩ := List.mem_map.mp (hclause c hc)
      exact hσ r hr
    have hone := Clause.holds_choice.mp (hholds (Clause.choice [1]) (by decide))
    have htwo := Clause.holds_choice.mp (hholds (Clause.choice [2]) (by decide))
    refine Clause.holds_excludes.mp (hholds _ List.mem_cons_self) ⟨?_, ?_⟩
    · simpa using hone
    · simpa using htwo
  · obtain ⟨st, hret, -⟩ := hall vitalConflictJobs vitalConflict (fun _ => .unsatisfiable [])
      (fun _ => true) rfl (fun _ _ heq lit hlit => by cases heq; cases hlit)
    cases hret.unique (hread fun _ => true)

end Driver
end NextBSD.Libpkg
