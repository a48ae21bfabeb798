import NextBSD.Libpkg.Policy
import NextBSD.Libpkg.VersionOrder
import NextBSD.Library.Tables
import NextBSD.Library.Program

/-!
# Building the job universe

The state that `libpkg/pkg_jobs_universe.c` builds and its primitive operations, with
patch 0001 applied.  A hash table is the list of its entries, and `pkghash_safe_add` is
`Assoc.add`.  What a job reads from
its databases is in `UniverseEnv`; an iterator is the list of the rows it gives, and
`none` stands for a query that failed.
-/

namespace NextBSD.Libpkg

structure UniverseItem where
  pkg : Pkg
  processed : Bool := false
  deriving DecidableEq, Repr

structure ItemRef where
  uid : String
  place : Nat
  deriving DecidableEq, Repr

/-- An entry of `universe->provides`. -/
structure ProvideRef where
  un : ItemRef
  provide : String
  isShlib : Bool
  deriving DecidableEq, Repr

/-- What is reported: `pkg_emit_error` and `pkg_emit_locked`. -/
inductive Emitted where
  | error (message : String)
  | locked (pkg : Pkg)
  deriving DecidableEq, Repr

/-- `struct pkg_jobs_universe`.  `seen` maps a digest to the uid of the chain it was
first seen in. -/
structure JobsUniverse where
  items : List (String × List UniverseItem) := []
  seen : List (String × String) := []
  provides : List (String × List ProvideRef) := []
  rdepsDepth : Nat := 0
  emitted : List Emitted := []
  deriving DecidableEq, Repr

abbrev UniverseM := StateT JobsUniverse Option

/-- The databases and settings of a job.  `query` is `pkgdb_query` with
`MATCH_INTERNAL`, and `repoQuery` the same on the repositories. -/
structure UniverseEnv where
  type : JobsType
  force : Bool := false
  recursive : Bool := false
  forceMissing : Bool := false
  reinstallOnOptionsChange : Bool := true
  systemShlibs : List String := []
  query : String → Option (List Pkg)
  queryProvide : String → Option (List Pkg) := fun _ => some []
  queryRequire : String → Option (List Pkg) := fun _ => some []
  queryShlibProvide : String → Option (List Pkg) := fun _ => some []
  queryShlibRequire : String → Option (List Pkg) := fun _ => some []
  repoQuery : String → Option (List Pkg) := fun _ => some []
  repoProvide : String → Option (List Pkg) := fun _ => some []
  repoShlibProvide : String → Option (List Pkg) := fun _ => some []
  /-- `pkg_checksum_calculate`; `none` if it fails. -/
  checksum : Pkg → Option String := fun _ => none

def localRow (p : Pkg) : Pkg := { p with type := .installed }

/-- A row of a query for a provider: it has neither the flags nor `rdepends`, and only
the query for a shared library selects the digest. -/
def providerRow (isShlib : Bool) (p : Pkg) : Pkg :=
  { p with
    type := .installed
    digest := if isShlib then p.digest else none
    locked := false, automatic := false, vital := false, rdepends := [] }

/-- A row of a repository, loaded with `PKG_LOAD_COMMON`.  A query can find a group too. -/
def remoteRow (p : Pkg) : Pkg :=
  { p with
    type := if p.type = .groupRemote then .groupRemote else .remote
    locked := false, automatic := false, rdepends := [] }

/-- `pkgdb_query` for a uid, up to its first row. -/
def UniverseEnv.localPkg (env : UniverseEnv) (uid : String) : Option Pkg :=
  ((env.query uid).bind List.head?).map localRow

def nextbsdForeignPkg (pkg : Pkg) : Bool :=
  pkg.type = .remote && isPkgItself pkg.name && pkg.reponame ≠ some nextbsdPkgRepo

/-- `pkgdb_ensure_loaded` with `PKG_LOAD_COMMON`.  The fields of a remote package are
loaded already. -/
def ensureLoadedCommon (env : UniverseEnv) (pkg : Pkg) : Pkg :=
  if pkg.type = .installed then
    match env.localPkg pkg.uid with
    | some row =>
      { pkg with
        depends := row.depends, options := row.options, requires := row.requires
        provides := row.provides, shlibsRequired := row.shlibsRequired
        shlibsProvided := row.shlibsProvided, annotations := row.annotations
        conflicts := row.conflicts }
    | none => pkg
  else pkg

/-- `pkgdb_ensure_loaded` with `PKG_LOAD_ALL`. -/
def ensureLoaded (env : UniverseEnv) (pkg : Pkg) : Pkg :=
  let pkg := ensureLoadedCommon env pkg
  if pkg.type = .installed then
    match env.localPkg pkg.uid with
    | some row => { pkg with rdepends := row.rdepends }
    | none => pkg
  else pkg

/-- `pkg_validate`, and the second try of its caller at a digest. -/
def pkgValidate (env : UniverseEnv) (pkg : Pkg) : Pkg :=
  if pkg.digest = none then
    let pkg := ensureLoadedCommon env pkg
    { pkg with digest := env.checksum pkg }
  else pkg

def JobsUniverse.find (u : JobsUniverse) (uid : String) : Option (List UniverseItem) :=
  u.items.lookup uid

def JobsUniverse.itemAt (u : JobsUniverse) (ref : ItemRef) : Option UniverseItem :=
  (u.find ref.uid).bind fun chain => chain[ref.place]?

def JobsUniverse.update (u : JobsUniverse) (ref : ItemRef) (f : UniverseItem → UniverseItem) :
    JobsUniverse :=
  { u with
    items := u.items.map fun e => (e.1, if e.1 = ref.uid then e.2.modify ref.place f else e.2) }

def JobsUniverse.push (u : JobsUniverse) (pkg : Pkg) (digest : String) : JobsUniverse :=
  { u with
    items := Assoc.upsert u.items pkg.uid [{ pkg }] fun chain => chain ++ [{ pkg }]
    seen := Assoc.add u.seen digest pkg.uid }

def emit (e : Emitted) : UniverseM Unit := modify fun u => { u with emitted := u.emitted ++ [e] }

/-- The comparison of the loop of `pkg_jobs_universe_add_pkg`. -/
def samePackage (pkg : Pkg) (tmp : UniverseItem) : Bool :=
  tmp.pkg.type = pkg.type && tmp.pkg.digest = pkg.digest &&
    (tmp.pkg.reponame = none || tmp.pkg.reponame = pkg.reponame)

/-- The item of the chain first seen with that digest that is the same package. -/
def JobsUniverse.findSame (u : JobsUniverse) (pkg : Pkg) (digest : String) : Option ItemRef := do
  let uid ← u.seen.lookup digest
  let chain ← u.find uid
  let place ← chain.findIdx? (samePackage pkg)
  return { uid, place }

/-- A return code, the item found or added, and the package as the call leaves it. -/
structure AddResult where
  rc : Epkg
  found : Option ItemRef
  pkg : Pkg
  deriving DecidableEq, Repr

def addPkg (env : UniverseEnv) (pkg : Pkg) : UniverseM AddResult := do
  let pkg := pkgValidate env pkg
  match pkg.digest with
  | none => return { rc := .fatal, found := none, pkg }
  | some digest =>
    let u ← get
    match u.findSame pkg digest with
    | some ref => return { rc := .end, found := some ref, pkg }
    | none =>
      if pkg.locked then return { rc := .locked, found := none, pkg }
      else
        let place := ((u.find pkg.uid).getD []).length
        modify fun u => u.push pkg digest
        return { rc := .ok, found := some { uid := pkg.uid, place }, pkg }

/-- The item that `pkg_jobs_universe_get_local` takes from a chain. -/
def localItem (chain : List UniverseItem) : Option (Nat × Pkg) :=
  match chain.findIdx? fun cur => cur.pkg.type = .installed || cur.pkg.type = .groupInstalled with
  | none => none
  | some place =>
    match chain[place]? with
    | some found => if found.pkg.type = .installed then some (place, found.pkg) else none
    | none => none

/-- `pkg_jobs_universe_get_local` with all flags. -/
def getLocal (env : UniverseEnv) (uid : String) : UniverseM (Option Pkg) := do
  match ((← get).find uid).bind localItem with
  | some (place, pkg) =>
    modify fun u => u.update { uid, place } fun item => { item with pkg := ensureLoaded env item.pkg }
    return some (ensureLoaded env pkg)
  | none => return env.localPkg uid

/-- `append_pkg_if_newer`: sorted by name, and of each name the highest version. -/
def appendPkgIfNewer : List Pkg → Pkg → List Pkg
  | [], p => [p]
  | q :: pkgs, p =>
    if q.name = p.name then
      if versionCmp q.version p.version = -1 then p :: pkgs else q :: pkgs
    else if p.name < q.name then p :: q :: pkgs
    else q :: appendPkgIfNewer pkgs p

/-- `pkg_jobs_universe_get_remote`; an empty list is the null pointer. -/
def getRemote (env : UniverseEnv) (uid : String) : UniverseM (List Pkg) := do
  let u ← get
  if ((u.find uid).getD []).any fun item => item.pkg.type ≠ .installed then return []
  else
    let rows := ((env.repoQuery uid).getD []).map remoteRow
    return (rows.filter fun pkg => !nextbsdForeignPkg pkg).foldl appendPkgIfNewer []

/-- `pkg_jobs_need_upgrade`.  Each merge of two sorted vectors finds no difference
exactly if the vectors are equal. -/
def pkgJobsNeedUpgrade (env : UniverseEnv) (rp lp : Pkg) : Bool :=
  if lp.locked then false
  else if lp.digest ≠ none && lp.digest = rp.digest then false
  else
    let ret := versionCmp lp.version rp.version
    if 0 < ret then false
    else if ret < 0 then true
    else
      let wanted (p : Pkg) := p.shlibsRequired.filter fun s => !charvSearch env.systemShlibs s
      lp.abi ≠ rp.abi || lp.vital ≠ rp.vital ||
      (env.reinstallOnOptionsChange && lp.options ≠ rp.options) ||
      (lp.depends.map fun d => (d.name, d.origin)) ≠ (rp.depends.map fun d => (d.name, d.origin)) ||
      lp.conflicts.map PkgConflict.uid ≠ rp.conflicts.map PkgConflict.uid ||
      lp.provides ≠ rp.provides || lp.requires ≠ rp.requires ||
      lp.shlibsProvided ≠ rp.shlibsProvided || wanted lp ≠ wanted rp

/-- `pkg_jobs_need_upgrade` with what it reports. -/
def askUpgrade (env : UniverseEnv) (rp lp : Pkg) : UniverseM Bool := do
  if lp.locked then emit (.locked lp)
  return pkgJobsNeedUpgrade env rp lp

def remoteShouldSkip (loc remote : Pkg) : Bool :=
  (loc.digest ≠ none && loc.digest = remote.digest) ||
    versionCmp remote.version loc.version ≤ 0

end NextBSD.Libpkg
