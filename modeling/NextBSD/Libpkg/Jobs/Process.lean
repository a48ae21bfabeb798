import NextBSD.Libpkg.Jobs.Universe

/-!
# Expanding the job universe

The mutual recursion of `libpkg/pkg_jobs_universe.c`: `pkg_jobs_universe_process_item`
adds a package and then follows its dependencies, reverse dependencies, shared
libraries and requirements.
-/

namespace NextBSD.Libpkg

open Program

/-- The `DEPS_FLAG_*` bits that some caller sets. -/
structure DepsFlags where
  reverse : Bool := false
  mirror : Bool := false
  forceLocal : Bool := false
  forceMissing : Bool := false
  deriving DecidableEq, Repr

section
variable (env : UniverseEnv) (process : Pkg → UniverseM AddResult)

/-- A remote candidate of a dependency; `npkg` is the installed package, if any. -/
def processCandidate (npkg : Option Pkg) (rpkg : Pkg) : UniverseM (Except Epkg Unit) := do
  match npkg with
  | some npkg =>
    if ← askUpgrade env rpkg npkg then
      -- save the automatic flag
      let _ ← process { rpkg with automatic := npkg.automatic }
    return .ok ()
  | none =>
    let r ← process rpkg
    return if r.rc = .ok then .ok () else .error r.rc

/-- The candidates to try: the one of the same repository, and all of them if there is
none. -/
def candidatesFor (pkg : Pkg) (rpkgs : List Pkg) : List Pkg :=
  let same := rpkgs.reverse.find? fun rpkg =>
    pkg.reponame ≠ none && pkg.reponame = rpkg.reponame
  match same with
  | some rpkg => [rpkg]
  | none => rpkgs.reverse

def localDependency (flags : DepsFlags) (uid : String) : UniverseM (Option Pkg) :=
  if flags.mirror then return none else getLocal env uid

def remoteDependencies (flags : DepsFlags) (uid : String) : UniverseM (List Pkg) :=
  if flags.forceLocal then return [] else getRemote env uid

/-- One iteration of `pkg_jobs_universe_process_deps`. -/
def processDep (flags : DepsFlags) (pkg : Pkg) (d : PkgDep) : UniverseM (Except Epkg Unit) := do
  if ((← get).find d.uid).isSome then return .ok ()
  else
    let npkg ← localDependency env flags d.uid
    let rpkgs ← remoteDependencies env flags d.uid
    match npkg with
    | none =>
      if rpkgs = [] then
        emit (.error (pkg.name ++ " has a missing dependency: " ++ d.name))
        return if flags.forceMissing then .ok () else .error .fatal
      else foldUntil (fun _ => processCandidate env process none) () (candidatesFor pkg rpkgs)
    | some npkg =>
      let n ← process npkg
      if n.rc ≠ .ok then return .ok ()
      else
        foldUntil (fun _ => processCandidate env process (some n.pkg)) () (candidatesFor pkg rpkgs)

/-- The return code of a function that ends with `EPKG_OK` after its loop. -/
def returnCode : Except Epkg Unit → Epkg
  | .error rc => rc
  | .ok _ => .ok

/-- The package whose relations are followed: the reverse dependencies of one that is not
installed are those of the installed package of its uid. -/
def dependent (flags : DepsFlags) (pkg : Pkg) : UniverseM Pkg :=
  if flags.reverse && pkg.type ≠ .installed then
    return (← getLocal env pkg.uid).getD pkg
  else return pkg

def processDeps (flags : DepsFlags) (pkg : Pkg) : UniverseM Epkg := do
  let pkg ← dependent env flags pkg
  let deps := if flags.reverse then pkg.rdepends else pkg.depends
  return returnCode (← foldUntil (fun _ => processDep env process flags pkg) () deps)

/-- The vector of providers that an iteration of `pkg_jobs_universe_handle_provide` adds
to: none yet, the one in the table, or one that the table did not take. -/
inductive Provvec where
  | null | attached | detached
  deriving DecidableEq, Repr

def pushProvide (name : String) (isShlib : Bool) (provvec : Provvec) (un : ItemRef) :
    UniverseM Provvec := do
  let pr : ProvideRef := { un, provide := name, isShlib }
  match provvec, ((← get).provides.lookup name).isSome with
  | .null, true => return .detached
  | .detached, _ => return .detached
  | _, _ =>
    modify fun u => { u with provides := Assoc.upsert u.provides name [pr] fun l => l ++ [pr] }
    return .attached

def processProvider (name : String) (isShlib : Bool) (provvec : Provvec) (rpkg : Pkg)
    (failed : Epkg → Except Epkg Provvec) : UniverseM (Except Epkg Provvec) := do
  let r ← process rpkg
  if r.rc ≠ .ok then return failed r.rc
  else match r.found with
    | some un => return .ok (← pushProvide name isShlib provvec un)
    | none => failure

/-- One iteration of `pkg_jobs_universe_handle_provide`. -/
def handleProvideRow (name : String) (isShlib : Bool) (provvec : Provvec) (rpkg : Pkg) :
    UniverseM (Except Epkg Provvec) := do
  let continues : Epkg → Except Epkg Provvec := fun _ => .ok provvec
  if nextbsdForeignPkg rpkg then return .ok provvec
  else match ((← get).find rpkg.uid).bind List.head? with
    | some unit =>
      if unit.pkg.type = .installed && remoteShouldSkip unit.pkg rpkg then
        return .ok (← pushProvide name isShlib provvec { uid := rpkg.uid, place := 0 })
      else processProvider process name isShlib provvec rpkg continues
    | none =>
      match ← getLocal env rpkg.uid with
      | some npkg =>
        let n ← process npkg
        if n.rc ≠ .ok then return .error .fatal
        else if remoteShouldSkip n.pkg rpkg then
          match n.found with
          | some un => return .ok (← pushProvide name isShlib provvec un)
          | none => failure
        else processProvider process name isShlib provvec rpkg continues
      | none =>
        if rpkg.digest = none && env.checksum rpkg = none then return .error .fatal
        else
          let digest := if rpkg.digest = none then env.checksum rpkg else rpkg.digest
          processProvider process name isShlib provvec { rpkg with digest } .error

def handleProvide (name : String) (isShlib : Bool) (rows : List Pkg) : UniverseM Epkg := do
  let provvec := if ((← get).provides.lookup name).isSome then .attached else .null
  match ← foldUntil (handleProvideRow env process name isShlib) provvec rows with
  | .error rc => return rc
  | .ok _ => return .ok

/-- `pkg_jobs_universe_handle_provide` on an iterator; a query that failed is skipped. -/
def handleProvideIt (name : String) (isShlib : Bool) (it : Option (List Pkg)) : UniverseM Epkg :=
  match it with
  | none => return .ok
  | some rows => handleProvide env process name isShlib rows

/-- One iteration of `pkg_jobs_universe_process_shlibs`: a provider that is not found is
no error. -/
def processShlib (s : String) : UniverseM (Except Epkg Unit) := do
  if charvSearch env.systemShlibs s then return .ok ()
  else if ((← get).provides.lookup s).isSome then return .ok ()
  else
    let _ ← handleProvideIt env process s true
      ((env.queryShlibProvide s).map (·.map (providerRow true)))
    let _ ← handleProvideIt env process s true ((env.repoShlibProvide s).map (·.map remoteRow))
    return .ok ()

def processShlibs (pkg : Pkg) : UniverseM Epkg :=
  return returnCode (← foldUntil (fun _ => processShlib env process) () pkg.shlibsRequired)

/-- One iteration of `pkg_jobs_universe_process_provides_requires`. -/
def processRequire (r : String) : UniverseM (Except Epkg Unit) := do
  if ((← get).provides.lookup r).isSome then return .ok ()
  else
    let _ ← handleProvideIt env process r false
      ((env.queryProvide r).map (·.map (providerRow false)))
    let rc ← handleProvideIt env process r false ((env.repoProvide r).map (·.map remoteRow))
    return if rc = .ok then .ok () else .error rc

def processProvidesRequires (pkg : Pkg) : UniverseM Epkg :=
  return returnCode (← foldUntil (fun _ => processRequire env process) () pkg.requires)

/-- The dependencies of a package in one direction, and then what it requires. -/
def processRelations (flags : DepsFlags) (read : UniverseM Pkg) : UniverseM Epkg := do
  let rc ← processDeps env process flags (← read)
  if rc ≠ .ok then return rc
  else
    let rc ← processShlibs env process (← read)
    if rc ≠ .ok then return rc
    else processProvidesRequires env process (← read)

/-- The reverse dependencies, unless the search is inside reverse dependencies and the
package is installed. -/
def processReverse (flags : DepsFlags) (pkg : Pkg) : UniverseM Epkg := do
  if (← get).rdepsDepth = 0 || pkg.type ≠ .installed then
    modify fun u => { u with rdepsDepth := u.rdepsDepth + 1 }
    let rc ← processDeps env process { flags with reverse := true } pkg
    modify fun u => { u with rdepsDepth := u.rdepsDepth - 1 }
    return rc
  else return .ok

/-- The dependencies of a package in both directions, and then what it requires. -/
def processBoth (flags : DepsFlags) (read : UniverseM Pkg) : UniverseM Epkg := do
  let rc ← processDeps env process flags (← read)
  if rc ≠ .ok then return rc
  else
    let rc ← processReverse env process flags (← read)
    if rc ≠ .ok then return rc
    else
      let rc ← processShlibs env process (← read)
      if rc ≠ .ok then return rc
      else processProvidesRequires env process (← read)

/-- The `switch` of `pkg_jobs_universe_process_item`; `rc` is the code it starts with. -/
def processByType (rc : Epkg) (read : UniverseM Pkg) : UniverseM Epkg := do
  let flags : DepsFlags := { forceMissing := env.forceMissing }
  match env.type with
  | .fetch =>
    if env.recursive then processDeps env process { flags with mirror := true } (← read)
    else return rc
  | .install | .upgrade => processBoth env process flags read
  | .autoremove => processRelations env process flags read
  | .deinstall =>
    if env.recursive then
      processRelations env process { flags with reverse := true, forceLocal := true } read
    else return rc

end

/-- A package that was added is the item of its chain, which a later lookup may load
further. -/
def readPkg (added : AddResult) : UniverseM Pkg := do
  match added.rc, added.found.bind (← get).itemAt with
  | .ok, some item => return item.pkg
  | _, _ => return added.pkg

/-- `pkg_jobs_universe_process_item`, with a bound on the depth of the recursion. -/
def processItem (env : UniverseEnv) : Nat → Pkg → UniverseM AddResult
  | 0, _ => failure
  | fuel + 1, pkg => do
    let added ← addPkg env pkg
    match added.found with
    | none => return added
    | some found =>
      if added.rc = .end && ((← get).itemAt found).any UniverseItem.processed then
        return { added with rc := .ok }
      else
        modify fun u => u.update found fun item => { item with processed := true }
        let rc ← processByType env (processItem env fuel) added.rc (readPkg added)
        return { added with rc }

/-- The first test on a candidate of an upgrade: nothing is selected yet, and it is an
upgrade of the installed package, if there is one. -/
def startsUpgrade (env : UniverseEnv) (lp selected : Option Pkg) (pkg : Pkg) : UniverseM Bool :=
  match selected, lp with
  | some _, _ => return false
  | none, none => return true
  | none, some lp => askUpgrade env pkg lp

/-- One iteration of `pkg_jobs_universe_get_upgrade_candidates`; `none` is
`selected == lp`. -/
def selectUpgrade (env : UniverseEnv) (force : Bool) (lp selected : Option Pkg) (pkg : Pkg) :
    UniverseM (Option Pkg) := do
  if force then return some pkg
  else if ← startsUpgrade env lp selected pkg then return some pkg
  else
    return match selected.or lp with
      | some s => if versionCmp s.version pkg.version = -1 then some pkg else selected
      | none => selected

def addAll (env : UniverseEnv) (pkgs : List Pkg) : UniverseM PUnit :=
  pkgs.forM fun pkg => do
    let _ ← addPkg env pkg

/-- The part of `pkg_jobs_universe_get_upgrade_candidates` that looks in the repositories. -/
def repoCandidates (env : UniverseEnv) (uid : String) (lp : Option Pkg) (force : Bool)
    (version : Option String) : UniverseM (Option (List UniverseItem)) := do
  match env.repoQuery uid with
  | none => return none
  | some rows =>
    let candidates := (rows.map remoteRow).filter fun pkg =>
      !nextbsdForeignPkg pkg && (version = none || version = some pkg.version)
    let selected ← candidates.foldlM (selectUpgrade env force lp) none
    addAll env lp.toList
    match selected with
    | none => return none
    | some _ =>
      addAll env candidates.reverse
      return (← get).find uid

/-- `pkg_jobs_universe_get_upgrade_candidates`: the chain, or the null pointer. -/
def getUpgradeCandidates (env : UniverseEnv) (uid : String) (lp : Option Pkg) (force : Bool)
    (version : Option String) : UniverseM (Option (List UniverseItem)) := do
  match (← get).find uid with
  | some chain =>
    if !force || chain.any fun item => item.pkg.type ≠ .installed then return some chain
    else repoCandidates env uid lp force version
  | none => repoCandidates env uid lp force version

end NextBSD.Libpkg
