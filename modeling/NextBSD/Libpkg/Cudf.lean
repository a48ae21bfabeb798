import Mathlib.Logic.Function.Basic
import NextBSD.Library.NumberedSort
import NextBSD.Libpkg.Types
import NextBSD.Libpkg.VersionOrder

/-!
# Versions in CUDF

`pkg_cudf.c`: what is written for the candidates of a universe, and the candidate an entry of the
solver's output selects.  A write does not fail.  How names and line breaks are printed is left out.
-/

namespace NextBSD.Libpkg

open NumberedSort

/-- `struct pkg_job_universe_item`.  The address of its package tells it from the others. -/
structure CudfItem where
  addr : Nat
  pkg : Pkg
  deriving DecidableEq, Repr

structure CudfChain where
  uid : String
  items : List CudfItem
  addr_nodup : (items.map CudfItem.addr).Nodup
  item_uid : ∀ u ∈ items, u.pkg.uid = uid

structure CudfUniverse where
  chains : List CudfChain
  uid_nodup : (chains.map CudfChain.uid).Nodup

/-- `pkg_cudf_version_cmp`, with the addresses that have `cudf_emit_skip`. -/
def pkgCudfVersionCmp (skip : Nat → Bool) (a b : CudfItem) : Int × (Nat → Bool) :=
  let ret := versionCmp a.pkg.version b.pkg.version
  if ret = 0 then
    if a.pkg.type ≠ .installed then (ret, Function.update skip a.addr true)
    else if b.pkg.type ≠ .installed then (ret, Function.update skip b.addr true)
    else (ret, skip)
  else (ret, skip)

/-- `cudf_emit_skip` after the comparisons of `qsort`. -/
def cudfEmitSkip (compared : List (CudfItem × CudfItem)) : Nat → Bool :=
  compared.foldl (fun skip p => (pkgCudfVersionCmp skip p.1 p.2).2) (fun _ => false)

def compareItems (a b : CudfItem) : Int := versionCmp a.pkg.version b.pkg.version

/-- What `qsort` may do to a vector.  The order of equal elements is not specified. -/
def IsQsort (qsort : List CudfItem → Outcome CudfItem) : Prop :=
  ∀ items, items.Nodup → Sorts compareItems items (qsort items)

/-- A name on a line, with the version of `cudf_print_conflict`. -/
structure CudfElement where
  name : String
  version : Option Nat := none
  hasNext : Bool
  deriving DecidableEq, Repr

structure CudfStanza where
  package : String
  version : Nat
  depends : List CudfElement
  provides : List CudfElement
  conflicts : List CudfElement
  installed : Bool
  deriving DecidableEq, Repr

/-- The elements of a line that are all printed with `cudf_print_element`. -/
def cudfElements : List String → List CudfElement
  | [] => []
  | name :: rest => { name := name, hasNext := !rest.isEmpty } :: cudfElements rest

/-- The column after `cudf_print_element`. -/
def columnAfter (column : Nat) (name : String) (hasNext : Bool) : Nat :=
  (if column > 80 then 2 else column) + name.length + (if hasNext then 2 else 1)

/-- The `provides` line.  Whether there is a next one is decided by the column. -/
def cudfProvides (len : Nat) : Nat → List String → List CudfElement
  | _, [] => []
  | column, name :: rest =>
    let hasNext := column + 1 == len
    { name := name, hasNext := hasNext } ::
      cudfProvides len (columnAfter column name hasNext) rest

/-- The conflicts of a candidate with the others of its chain, from version `ver` on. -/
def cudfChainConflicts (skip : Nat → Bool) (self : CudfItem) :
    Nat → List CudfItem → List CudfElement
  | _, [] => []
  | ver, u :: rest =>
    let hasNext := rest.any (fun v => v.addr != self.addr)
    if u.addr != self.addr && !skip u.addr then
      { name := self.pkg.uid, version := some ver, hasNext := hasNext } ::
        cudfChainConflicts skip self (ver + 1) rest
    else cudfChainConflicts skip self (ver + 1) rest

def cudfEmitPkg (skip : Nat → Bool) (chain : List CudfItem) (self : CudfItem) (version : Nat) :
    CudfStanza :=
  let pkg := self.pkg
  let hasChainConflict := chain.any (fun u => u.addr != self.addr && !skip u.addr)
  { package := pkg.uid
    version := version
    depends := cudfElements (pkg.depends.map PkgDep.name)
    provides := cudfProvides pkg.provides.length 0 pkg.provides
    conflicts :=
      if !pkg.conflicts.isEmpty || hasChainConflict then
        cudfElements (pkg.conflicts.map PkgConflict.uid) ++ cudfChainConflicts skip self 1 chain
      else []
    installed := pkg.type == .installed }

def cudfEmitChain (skip : Nat → Bool) (chain : List CudfItem) :
    Nat → List CudfItem → List (CudfItem × CudfStanza)
  | _, [] => []
  | version, icur :: rest =>
    if !skip icur.addr then
      (icur, cudfEmitPkg skip chain icur version) :: cudfEmitChain skip chain (version + 1) rest
    else cudfEmitChain skip chain version rest

section

variable (qsort : List CudfItem → Outcome CudfItem)

def cudfEmitted (chain : CudfChain) : List (CudfItem × CudfStanza) :=
  let o := qsort chain.items
  cudfEmitChain (cudfEmitSkip o.compared) o.sorted 1 o.sorted

/-- `pkg_jobs_cudf_emit_file` without the preamble and the request. -/
def pkgJobsCudfEmitFile (jobUniverse : CudfUniverse) : List CudfStanza :=
  jobUniverse.chains.flatMap (fun chain => (cudfEmitted qsort chain).map Prod.snd)

/-- `struct pkg_cudf_entry` with the version that `strtoul` reads. -/
structure CudfEntry where
  uid : String
  version : Nat
  installed : Bool
  deriving DecidableEq, Repr

inductive CudfJob where
  | install (new : CudfItem)
  | delete (new : CudfItem)
  | upgrade (new old : CudfItem)
  deriving DecidableEq, Repr

inductive CudfError where
  | notInUniverse (uid : String)
  | noSuchVersion (uid : String) (ver found : Nat)
  | assertOld
  deriving DecidableEq, Repr

/-- The candidate whose number in the chain is `ver`, and where the count ends. -/
def cudfSelect (ver : Nat) : Nat → List CudfItem → Option CudfItem × Nat
  | n, [] => (none, n)
  | n, u :: rest => if n = ver then (some u, n) else cudfSelect ver (n + 1) rest

def pkgJobsUniverseFind (jobUniverse : CudfUniverse) (uid : String) : Option (List CudfItem) :=
  (jobUniverse.chains.find? (fun chain => chain.uid == uid)).map
    (fun chain => (qsort chain.items).sorted)

/-- The job of `pkg_jobs_cudf_add_package` for the candidate that it has selected. -/
def cudfInsertJob (uv : List CudfItem) (entry : CudfEntry) (selected : CudfItem) (n : Nat) :
    Except CudfError (Option CudfJob) :=
  if n = 1 then
    if entry.installed && selected.pkg.type != .installed then .ok (some (.install selected))
    else if !entry.installed && selected.pkg.type == .installed then .ok (some (.delete selected))
    else .ok none
  else
    match uv.find? (fun u => u.addr != selected.addr) with
    | none => .error .assertOld
    | some old => .ok (some (.upgrade selected old))

/-- `pkg_jobs_cudf_add_package` after the universe has been written: the candidate it selects and
the job it inserts. -/
def pkgJobsCudfAddPackage (jobUniverse : CudfUniverse) (entry : CudfEntry) :
    Except CudfError (CudfItem × Option CudfJob) :=
  match pkgJobsUniverseFind qsort jobUniverse entry.uid with
  | none => .error (.notInUniverse entry.uid)
  | some uv =>
    match cudfSelect entry.version 1 uv with
    | (none, n) => .error (.noSuchVersion entry.uid entry.version n)
    | (some selected, n) => (cudfInsertJob uv entry selected n).map (fun job => (selected, job))

def CudfStanza.conflictVersions (stanza : CudfStanza) : List Nat :=
  stanza.conflicts.filterMap CudfElement.version

/-- Each candidate that is written is the one its package and version select, and its conflicts line
has the numbers of the others that are written. -/
def NumbersAgree (jobUniverse : CudfUniverse) : Prop :=
  ∀ chain ∈ jobUniverse.chains, ∀ e ∈ cudfEmitted qsort chain,
    (∀ entry : CudfEntry, entry.uid = e.2.package → entry.version = e.2.version →
      ∃ job, pkgJobsCudfAddPackage qsort jobUniverse entry = .ok (e.1, job)) ∧
    e.2.conflictVersions =
      ((cudfEmitted qsort chain).filter (fun o => o.1.addr != e.1.addr)).map (fun o => o.2.version)

end

end NextBSD.Libpkg
