import NextBSD.Library.Clause
import NextBSD.Libpkg.Abi
import NextBSD.Libpkg.Types

/-!
# From jobs to clauses

The first half of `libpkg/pkg_solve.c`: `pkg_solve_jobs_to_sat` and the rule
generators below it, with patch 0005 applied.  A generator whose assertion fails,
or that parses an ABI string that aborts the program, is `none`.
-/

namespace NextBSD.Libpkg

inductive RuleReason where
  | depend | upgradeConflict | explicitConflict | requestConflict | request | require | vital
  deriving DecidableEq, Repr

/-- `struct pkg_solve_variable`; its flags are in the state of the problem. -/
structure SolveVariable where
  order : Nat
  unit : Pkg
  deriving DecidableEq, Repr

def SolveVariable.uid (v : SolveVariable) : String := v.unit.uid

structure SolveItem where
  var : SolveVariable
  inverse : Int
  deriving DecidableEq, Repr

structure SolveRule where
  reason : RuleReason
  items : List SolveItem
  deriving DecidableEq, Repr

/-- The literal the solver is given for an item: `var->order * inverse`. -/
def SolveItem.literal (i : SolveItem) : Clause.Literal Nat :=
  { var := i.var.order, positive := 0 < i.inverse }

def SolveRule.Holds (σ : Nat → Bool) (r : SolveRule) : Prop :=
  Clause.Holds σ (r.items.map SolveItem.literal)

instance (σ : Nat → Bool) (r : SolveRule) : Decidable (r.Holds σ) :=
  inferInstanceAs (Decidable (Clause.Holds σ _))

/-- `PKG_VAR_INSTALL` and `PKG_VAR_TOP`. -/
structure VarFlags where
  install : Bool := false
  top : Bool := false
  deriving DecidableEq, Repr

/-- `variables_by_uid`: the slice of variables of each uid. -/
abbrev VariablesByUid := List (String × List SolveVariable)

structure SolveState where
  rules : List SolveRule := []
  flags : Nat → VarFlags := fun _ => {}
  assumptions : List Int := []

def SolveState.push (st : SolveState) (rules : List SolveRule) : SolveState :=
  { st with rules := st.rules ++ rules }

def SolveState.setFlags (st : SolveState) (order : Nat) (f : VarFlags → VarFlags) : SolveState :=
  { st with flags := fun n => if n = order then f (st.flags n) else st.flags n }

/-- `pkg_solve_add_variable`, for the chains from variable `n` on. -/
def pkgSolveAddVariables : Nat → List (String × List Pkg) → VariablesByUid
  | _, [] => []
  | n, (uid, uv) :: rest =>
    (uid, uv.mapIdx fun i p => { order := n + i + 1, unit := p }) ::
      pkgSolveAddVariables (n + uv.length) rest

def pkgSolveAddDependRule (vars : VariablesByUid) (var : SolveVariable) (dep : PkgDep) :
    List SolveRule :=
  let found := (dep.uid :: dep.alternatives).filterMap fun uid => vars.lookup uid
  if found = [] then []
  else [{ reason := .depend,
          items := { var, inverse := -1 } ::
            found.flatten.map fun curvar => { var := curvar, inverse := 1 } }]

/-- The tests of `pkg_solve_add_conflict_rule` on the types and the digest. -/
def conflictApplies (pkg : Pkg) (conflict : PkgConflict) (other : Pkg) : Bool :=
  (match conflict.type with
    | .remoteLocal =>
      if pkg.type = .installed then other.type ≠ .installed else other.type = .installed
    | .remoteRemote => pkg.type ≠ .installed && other.type ≠ .installed
    | _ => true) &&
  match conflict.digest with
  | some digest => other.digest = some digest
  | none => true

def pkgSolveAddConflictRule (vars : VariablesByUid) (var : SolveVariable)
    (conflict : PkgConflict) : List SolveRule :=
  let confslice := (vars.lookup conflict.uid).getD []
  (confslice.filter fun curvar => conflictApplies var.unit conflict curvar.unit).map fun curvar =>
    { reason := .explicitConflict,
      items := [{ var, inverse := -1 }, { var := curvar, inverse := -1 }] }

/-- The ABI tests of `pkg_solve_handle_provide` on two parsed ABIs. -/
def abiProvides (oabi pabi : PkgAbi) : Bool :=
  !(oabi.os ≠ pabi.os ||
    (oabi.arch ≠ pabi.arch && oabi.arch ≠ .any && pabi.arch ≠ .any) ||
    (!pkgOsIsFreebsdLike oabi.os && oabi.os ≠ .any)) &&
  !(pabi.major < oabi.major ||
    (pabi.major = oabi.major && pabi.minor < oabi.minor) ||
    (pabi.major = oabi.major && pabi.minor = oabi.minor && pabi.patch < oabi.patch))

/-- Whether the ABI of a provider suits the package that requires it; `none` if the
program aborts on one of the strings. -/
def abiSuits (orig pkg : Pkg) : Option Bool :=
  match pkgAbiFromString orig.abi with
  | .error .abort => none
  | .error (.invalid _) => some false
  | .ok oabi =>
    match pkgAbiFromString pkg.abi with
    | .error .abort => none
    | .error (.invalid _) => some false
    | .ok pabi => some (abiProvides oabi pabi)

/-- With `BACKUP_LIBRARIES`, upgrading to this package keeps the library of the installed
version. -/
def backupProvides (j : SolverJobs) (slice : List SolveVariable) (pkg : Pkg) (shlib : String) :
    Bool :=
  j.backupLibraries && pkg.type ≠ .installed && (j.type = .upgrade || j.type = .install) &&
    slice.any fun tmp => tmp.unit.type = .installed && charvSearch tmp.unit.shlibsProvided shlib

/-- Whether `pkg_solve_handle_provide` takes a variable of the provider's slice. -/
def satisfiesProvide (j : SolverJobs) (pr : JobProvide) (orig : Pkg) (slice : List SolveVariable)
    (curvar : SolveVariable) : Option Bool :=
  let pkg := curvar.unit
  if pr.isShlib then
    if charvSearch pkg.shlibsProvided pr.provide || backupProvides j slice pkg pr.provide then
      abiSuits orig pkg
    else some false
  else some (charvSearch pkg.provides pr.provide)

/-- The elements that pass a test, `none` if the test fails on one of them. -/
def filterOption {α : Type} (test : α → Option Bool) : List α → Option (List α)
  | [] => some []
  | a :: l => do
    let b ← test a
    let rest ← filterOption test l
    return if b then a :: rest else rest

/-- `pkg_solve_handle_provide`: the variables added to the rule. -/
def pkgSolveHandleProvide (j : SolverJobs) (vars : VariablesByUid) (orig : Pkg)
    (pr : JobProvide) : Option (List SolveVariable) :=
  let slice := (vars.lookup pr.un.uid).getD []
  filterOption (satisfiesProvide j pr orig slice) slice

def pkgSolveAddRequireRule (j : SolverJobs) (vars : VariablesByUid) (var : SolveVariable)
    (requirement : String) : Option (List SolveRule) :=
  match j.jobUniverse.provides.lookup requirement with
  | none => some []
  | some provvec => do
    let providers ← provvec.mapM (pkgSolveHandleProvide j vars var.unit)
    return if providers.flatten = [] then []
      else [{ reason := .require,
              items := { var, inverse := -1 } ::
                providers.flatten.map fun curvar => { var := curvar, inverse := 1 } }]

def pkgSolveAddVitalRule (slice : List SolveVariable) : List SolveRule :=
  let localVar := (slice.filter fun v => v.unit.type = .installed).getLast?
  let remoteVar := (slice.filter fun v => v.unit.type ≠ .installed).getLast?
  match localVar, remoteVar with
  | some l, some r =>
    [{ reason := .vital, items := [{ var := l, inverse := 1 }, { var := r, inverse := 1 }] }]
  | some l, none => [{ reason := .vital, items := [{ var := l, inverse := 1 }] }]
  | none, _ => []

def pairConflicts (reason : RuleReason) : List SolveVariable → List SolveRule
  | [] => []
  | curvar :: rest =>
    (rest.map fun confvar =>
      { reason, items := [{ var := curvar, inverse := -1 }, { var := confvar, inverse := -1 }] }) ++
    pairConflicts reason rest

def pkgSolveAddChainRule (slice : List SolveVariable) : List SolveRule :=
  pairConflicts .upgradeConflict slice

def pkgSolveAddRequestRule (vars : VariablesByUid) (req : List JobRequestItem) (inverse : Int)
    (st : SolveState) : Option SolveState := do
  let first ← req.head?
  let reqslice ← vars.lookup first.pkg.uid
  let var ← reqslice[first.unit]?
  let items ← req.mapM fun item => reqslice[item.unit]?
  let mark (st : SolveState) (v : SolveVariable) : SolveState :=
    st.setFlags v.order fun f => { install := f.install || 0 < inverse, top := true }
  let st := items.foldl mark { st with assumptions := st.assumptions ++ [var.order * inverse] }
  if items.length ≤ 1 then return st
  else if (items.map SolveVariable.order).Nodup then
    return st.push ({ reason := .request, items := items.map fun v => { var := v, inverse } } ::
      pairConflicts .requestConflict items)
  else none

def wantedShlibs (j : SolverJobs) (pkg : Pkg) : List String :=
  pkg.shlibsRequired.filter fun s =>
    !(j.ignoreCompat32 && strEndsWith s ":32") && !charvSearch j.systemShlibs s

/-- `add_vital` of `pkg_solve_process_universe_variable`. -/
def addVital (j : SolverJobs) : Bool := if j.forceCanRemoveVital then !j.force else true

/-- The rules of one variable that do not come from a request.  `vi` is its place in the
slice. -/
def variableRules (j : SolverJobs) (vars : VariablesByUid) (slice : List SolveVariable)
    (curVar : SolveVariable) (vi : Nat) : Option (List SolveRule) := do
  let pkg := curVar.unit
  let requires ← (wantedShlibs j pkg ++ pkg.requires).mapM (pkgSolveAddRequireRule j vars curVar)
  return pkg.depends.flatMap (pkgSolveAddDependRule vars curVar) ++
    pkg.conflicts.flatMap (pkgSolveAddConflictRule vars curVar) ++
    requires.flatten ++
    (if pkg.vital && addVital j then pkgSolveAddVitalRule slice else []) ++
    (if vi = 0 && 1 < slice.length then pkgSolveAddChainRule slice else [])

/-- The rules of the request, if any, that one of the two request tables has for a variable. -/
def requestRulesOf (vars : VariablesByUid) (reqs : List (String × List JobRequestItem))
    (inverse : Int) (curVar : SolveVariable) (st : SolveState) : Option SolveState :=
  match reqs.lookup curVar.uid with
  | some req => pkgSolveAddRequestRule vars req inverse st
  | none => some st

def requestRules (j : SolverJobs) (vars : VariablesByUid) (curVar : SolveVariable)
    (st : SolveState) : Option SolveState :=
  if (st.flags curVar.order).top then some st
  else do
    let st ← requestRulesOf vars j.requestAdd 1 curVar st
    requestRulesOf vars j.requestDelete (-1) curVar st

/-- `pkg_solve_process_universe_variable`, from place `vi` of the slice on. -/
def pkgSolveProcessUniverseVariable (j : SolverJobs) (vars : VariablesByUid)
    (slice : List SolveVariable) : List SolveVariable → Nat → SolveState → Option SolveState
  | [], _, st => some st
  | curVar :: rest, vi, st => do
    let st ← requestRules j vars curVar st
    let rules ← variableRules j vars slice curVar vi
    pkgSolveProcessUniverseVariable j vars slice rest (vi + 1) (st.push rules)

structure SolveProblem where
  variablesByUid : VariablesByUid
  state : SolveState

/-- The second loop of `pkg_solve_jobs_to_sat`. -/
def processSlices (j : SolverJobs) (vars : VariablesByUid) :
    List (String × List SolveVariable) → SolveState → Option SolveState
  | [], st => some st
  | (_, slice) :: rest, st => do
    let st ← pkgSolveProcessUniverseVariable j vars slice slice 0 st
    processSlices j vars rest st

def pkgSolveJobsToSat (j : SolverJobs) : Option SolveProblem := do
  let vars := pkgSolveAddVariables 0 j.jobUniverse.items
  let state ← processSlices j vars vars {}
  return { variablesByUid := vars, state }

end NextBSD.Libpkg
