import Mathlib.Data.List.Basic

/-!
# The package record

`struct pkg` with the fields the modelled functions read.  A C string is the
`String` of its bytes, one character a byte, so `STREQ` is equality and
`strcmp` is the order of `String`.  A pointer that may be `NULL` is an `Option`.
-/

namespace NextBSD.Libpkg

inductive Epkg where
  | ok | end | fatal | installed | notInstalled | locked | conflict | again
  deriving DecidableEq, Repr

inductive PkgType where
  | file | stream | remote | installed | oldFile | groupRemote | groupInstalled
  deriving DecidableEq, Repr

/-- `struct pkg_dep`.  Of an alternative only the uid is ever read. -/
structure PkgDep where
  name : String
  origin : Option String := none
  uid : String
  alternatives : List String := []
  deriving DecidableEq, Repr

inductive ConflictType where
  | all | remoteLocal | remoteRemote | localLocal
  deriving DecidableEq, Repr

/-- `struct pkg_conflict`.  A conflict declared in a manifest has no digest. -/
structure PkgConflict where
  uid : String
  digest : Option String := none
  type : ConflictType := .all
  deriving DecidableEq, Repr

structure Pkg where
  type : PkgType
  name : String
  uid : String
  version : String := ""
  abi : String := ""
  digest : Option String := none
  reponame : Option String := none
  locked : Bool := false
  automatic : Bool := false
  vital : Bool := false
  depends : List PkgDep := []
  rdepends : List PkgDep := []
  conflicts : List PkgConflict := []
  provides : List String := []
  requires : List String := []
  shlibsProvided : List String := []
  shlibsRequired : List String := []
  options : List (String × String) := []
  annotations : List (String × String) := []
  files : List String := []
  dirs : List String := []
  deriving DecidableEq, Repr

inductive JobsType where
  | install | deinstall | fetch | autoremove | upgrade
  deriving DecidableEq, Repr

inductive SolvedType where
  | install | delete | upgrade | upgradeRemove | fetch | upgradeInstall
  deriving DecidableEq, Repr

/-- `struct pkg_solved`.  `xlink` is the number of the other half of a split upgrade. -/
structure PkgSolved where
  type : SolvedType
  items0 : Pkg
  items1 : Option Pkg := none
  xlink : Option Nat := none
  deriving DecidableEq, Repr

/-- `pkg_kv_get`: the value of the first pair with that key. -/
def pkgKvGet (kv : List (String × String)) (tag : String) : Option String :=
  (kv.find? fun p => p.1 == tag).map Prod.snd

/-- `charv_search`, on a sorted vector: whether the string is one of its elements. -/
def charvSearch (v : List String) (el : String) : Bool := v.contains el

@[simp] theorem charvSearch_eq_true {v : List String} {el : String} :
    charvSearch v el = true ↔ el ∈ v := by
  simp [charvSearch]

end NextBSD.Libpkg

/-!
## The job universe

`struct pkg_jobs_universe`: for each uid the chain of candidates, local and
remote, and for each capability the candidates found to provide it.  A hash table
is the list of its entries in the order the table is iterated.
-/

namespace NextBSD.Libpkg

/-- `struct pkg_job_provide`; `un` is the candidate that was found. -/
structure JobProvide where
  un : Pkg
  provide : String
  isShlib : Bool
  deriving DecidableEq, Repr

structure Universe where
  items : List (String × List Pkg) := []
  provides : List (String × List JobProvide) := []
  deriving DecidableEq, Repr

/-- Each uid has one chain, which is not empty and has only candidates of that uid. -/
structure Universe.WellFormed (u : Universe) : Prop where
  items_nodup : (u.items.map Prod.fst).Nodup
  chain_ne : ∀ e ∈ u.items, e.2 ≠ []
  chain_uid : ∀ e ∈ u.items, ∀ p ∈ e.2, p.uid = e.1

/-- An entry of a job request: the package, and where its item stands in the chain of
its uid. -/
structure JobRequestItem where
  pkg : Pkg
  unit : Nat
  deriving DecidableEq, Repr

/-- `struct pkg_jobs` with what the solver reads. -/
structure SolverJobs where
  type : JobsType
  force : Bool := false
  forceCanRemoveVital : Bool := true
  backupLibraries : Bool := false
  ignoreCompat32 : Bool := false
  systemShlibs : List String := []
  requestAdd : List (String × List JobRequestItem) := []
  requestDelete : List (String × List JobRequestItem) := []
  jobUniverse : Universe
  wellFormed : jobUniverse.WellFormed

end NextBSD.Libpkg
