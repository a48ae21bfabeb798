import NextBSD.Library.SortedLists
import Mathlib.Logic.Function.Basic
import Mathlib.Data.List.SplitOn

/-!
# The package of a manifest

The fields of a package that its manifest holds, libucl's objects, and the functions of `pkg.c`
that add to a package.  A string is its bytes before the `NUL`.
-/

namespace NextBSD.Libpkg.Manifest

open SortedInsert

abbrev Bytes := List UInt8

def ascii (s : String) : Bytes := s.toList.map (fun c => UInt8.ofNat c.toNat)

/-! ## The package -/

/-- The fields that `pkg_string` writes. -/
inductive StringField where
  | abi
  | altabi
  | comment
  | depFormula
  | desc
  | maintainer
  | name
  | origin
  | repopath
  | pkgPrefix
  | sum
  | version
  | www
  deriving DecidableEq, Repr

inductive ListField where
  | categories
  | licenses
  | users
  | groups
  | shlibsRequired
  | shlibsRequiredIgnore
  | shlibsProvided
  | shlibsProvidedIgnore
  | conflicts
  | provides
  | requires
  deriving DecidableEq, Repr

inductive IntField where
  | flatsize
  | pkgsize
  | timestamp
  deriving DecidableEq, Repr

inductive LicenseLogic where
  | or
  | and
  | single
  deriving DecidableEq, Repr

inductive ScriptType where
  | preInstall
  | postInstall
  | preDeinstall
  | postDeinstall
  | install
  | deinstall
  deriving DecidableEq, Repr

inductive LuaType where
  | preInstall
  | postInstall
  | preDeinstall
  | postDeinstall
  deriving DecidableEq, Repr

structure Dep where
  name : Bytes
  origin : Option Bytes
  version : Option Bytes
  deriving DecidableEq, Repr

structure Kv where
  key : Bytes
  value : Bytes
  deriving DecidableEq, Repr

/-- `struct pkg_file`.  `mtime` is `time[1].tv_sec`. -/
structure File where
  path : Bytes
  sum : Option Bytes
  uname : Option Bytes
  gname : Option Bytes
  perm : Nat
  fflags : Nat
  mtime : Int
  symlinkTarget : Option Bytes
  deriving DecidableEq, Repr

structure Dir where
  path : Bytes
  uname : Option Bytes
  gname : Option Bytes
  perm : Nat
  fflags : Nat
  deriving DecidableEq, Repr

inductive MessageType where
  | always
  | install
  | remove
  | upgrade
  deriving DecidableEq, Repr

structure Message where
  str : Bytes
  type : MessageType
  minimumVersion : Option Bytes
  maximumVersion : Option Bytes
  deriving DecidableEq, Repr

/-- `struct pkg`.  `installed` is the type `PKG_INSTALLED`. -/
structure Pkg where
  installed : Bool
  strings : StringField → Option Bytes
  oprefix : Option Bytes
  ints : IntField → Int
  vital : Bool
  licenselogic : LicenseLogic
  lists : ListField → List Bytes
  depends : List Dep
  options : List Kv
  annotations : List Kv
  files : List File
  configFiles : List Bytes
  dirs : List Dir
  scripts : ScriptType → Option Bytes
  luaScripts : LuaType → List Bytes
  message : List Message

/-- `pkg_new`. -/
def fresh : Pkg where
  installed := false
  strings := fun _ => none
  oprefix := none
  ints := fun _ => 0
  vital := false
  licenselogic := .single
  lists := fun _ => []
  depends := []
  options := []
  annotations := []
  files := []
  configFiles := []
  dirs := []
  scripts := fun _ => none
  luaScripts := fun _ => []
  message := []

inductive Ucl where
  | object (entries : List (Bytes × Ucl))
  | array (elems : List Ucl)
  | string (s : Bytes)
  | int (i : Int)
  | boolean (b : Bool)

inductive UclType where
  | object
  | array
  | string
  | int
  | boolean
  deriving DecidableEq, Repr

def Ucl.type : Ucl → UclType
  | .object _ => .object
  | .array _ => .array
  | .string _ => .string
  | .int _ => .int
  | .boolean _ => .boolean

/-- The elements that `ucl_iterate_object` goes over, with their keys. -/
def Ucl.children : Ucl → List (Option Bytes × Ucl)
  | .object entries => entries.map (fun e => (some e.1, e.2))
  | .array elems => elems.map (fun e => (none, e))
  | scalar => [(none, scalar)]

/-- `UCL_CHARACTER_WHITESPACE_UNSAFE`. -/
def isBlank (c : UInt8) : Bool := c = 32 || (9 ≤ c && c ≤ 13)

/-- `UCL_STRING_TRIM`. -/
def trim (s : Bytes) : Bytes := (s.dropWhile isBlank).rdropWhile isBlank

/-- Why a manifest is not read to its end: an error is returned, or an assertion fails. -/
inductive Stop where
  | fatal
  | abort
  deriving DecidableEq, Repr

structure System where
  /-- `fflagstostr`, with no string for an allocation that fails. -/
  fflagstostr : Nat → Option Bytes
  /-- `strtofflags`: the flags to set and those to clear. -/
  strtofflags : Bytes → Option (Nat × Nat)
  /-- `getmode(setmode(s), 0)` for a string that does not start with a digit. -/
  symbolicMode : Bytes → Option Nat
  /-- `getcwd`. -/
  cwd : Option Bytes
  /-- `pkg_arch_to_legacy`. -/
  archToLegacy : Bytes → Bytes
  noVersionForDeps : Bool

def MAXPATHLEN : Nat := 1024

/-- A component that `pkg_absolutepath` appends to the path so far. -/
def appendComponent (destSize : Nat) (dest cur : Bytes) : Option Bytes :=
  if cur = [] then some dest
  else if cur = [46] then some dest
  else if cur = [46, 46] then
    some (if dest.contains 47 then dest.reverse.dropWhile (· ≠ 47) |>.tail.reverse else dest)
  else if destSize ≤ dest.length + 1 + cur.length then none
  else some (dest ++ 47 :: cur)

/-- `pkg_absolutepath`, not from the root. -/
def pkgAbsolutepath (sys : System) (src : Bytes) (destSize : Nat) : Option Bytes := do
  let start ← if src ≠ [] ∧ src.head? ≠ some 47 then sys.cwd else some []
  let dest ← (src.splitOn 47).foldlM (appendComponent destSize) start
  if dest = [] then (if destSize ≤ 1 then none else some [47]) else some dest

def insertListed (f : ListField) (v : Bytes) (pkg : Pkg) : Pkg :=
  { pkg with
    lists := Function.update pkg.lists f
      ((insertSorted id (pkg.lists f) v).getD (pkg.lists f)) }

def pkgAddstring (f : ListField) (v : Bytes) (pkg : Pkg) : Except Stop Pkg :=
  .ok (insertListed f v pkg)

def addNonempty (f : ListField) (v : Bytes) (pkg : Pkg) : Except Stop Pkg :=
  if v = [] then .error .abort else .ok (insertListed f v pkg)

def pkgAdduser := pkgAddstring .users
def pkgAddgroup := pkgAddstring .groups
def pkgAddshlibRequiredIgnore := addNonempty .shlibsRequiredIgnore
def pkgAddshlibProvided := addNonempty .shlibsProvided
def pkgAddshlibProvidedIgnore := addNonempty .shlibsProvidedIgnore
def pkgAddconflict := addNonempty .conflicts
def pkgAddprovide := addNonempty .provides
def pkgAddrequire := addNonempty .requires

/-- `pkg_addshlib_required` without flags, which passes over an empty name. -/
def pkgAddshlibRequired (v : Bytes) (pkg : Pkg) : Except Stop Pkg :=
  if v = [] then .ok pkg else .ok (insertListed .shlibsRequired v pkg)

def pkgAddoption (key value : Bytes) (pkg : Pkg) : Except Stop Pkg :=
  if key = [] ∨ value = [] then .error .abort
  else .ok { pkg with
    options := (insertSorted Kv.key pkg.options { key := key, value := value }).getD pkg.options }

/-- `pkg_kv_add` of an annotation. -/
def pkgKvAdd (key val : Bytes) (pkg : Pkg) : Except Stop Pkg :=
  .ok { pkg with
    annotations :=
      (insertSorted Kv.key pkg.annotations { key := key, value := val }).getD pkg.annotations }

def nonempty (s : Option Bytes) : Option Bytes := s.filter (· ≠ [])

/-- `pkg_adddep`.  Its return value is not looked at. -/
def pkgAdddep (name : Bytes) (origin version : Option Bytes) (pkg : Pkg) : Except Stop Pkg :=
  if name = [] then .error .abort
  else .ok { pkg with
    depends := (insertSorted Dep.name pkg.depends
      { name := name, origin := nonempty origin, version := nonempty version }).getD pkg.depends }

def pkgAddfileAttr (sys : System) (file : File) (pkg : Pkg) : Except Stop Pkg :=
  if file.path = [] then .error .abort
  else
    match pkgAbsolutepath sys file.path MAXPATHLEN with
    | none => .error .abort
    | some path =>
      let f := { file with path := path, mtime := if 0 < file.mtime then file.mtime else 0 }
      .ok { pkg with files := (insertSorted File.path pkg.files f).getD pkg.files }

def pkgAddconfigFile (sys : System) (path : Bytes) (pkg : Pkg) : Except Stop Pkg :=
  match pkgAbsolutepath sys path MAXPATHLEN with
  | none => .error .abort
  | some path =>
    match insertSorted id pkg.configFiles path with
    | none => .error .fatal
    | some configFiles => .ok { pkg with configFiles := configFiles }

def pkgAdddirAttr (sys : System) (dir : Dir) (pkg : Pkg) : Except Stop Pkg :=
  if dir.path = [] then .error .abort
  else if dir.path = [47] then .ok pkg
  else
    match pkgAbsolutepath sys dir.path MAXPATHLEN with
    | none => .error .abort
    | some path =>
      .ok { pkg with
        dirs := (insertSorted Dir.path pkg.dirs { dir with path := path }).getD pkg.dirs }

def pkgAdddir (sys : System) (path : Bytes) (pkg : Pkg) : Except Stop Pkg :=
  pkgAdddirAttr sys { path := path, uname := none, gname := none, perm := 0, fflags := 0 } pkg

def pkgAddscript (data : Bytes) (type : ScriptType) (pkg : Pkg) : Pkg :=
  { pkg with scripts := Function.update pkg.scripts type (some data) }

end NextBSD.Libpkg.Manifest
