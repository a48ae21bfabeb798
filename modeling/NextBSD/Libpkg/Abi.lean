import NextBSD.Libpkg.Cstring

/-!
# ABI strings

`libpkg/pkg_abi.c` and `private/pkg_abi.h` with patch 0005 applied.
-/

namespace NextBSD.Libpkg

inductive PkgOs where
  | unknown | freebsd | netbsd | dragonfly | linux | darwin | cheribsd | nextbsd | any
  deriving DecidableEq, Repr

inductive PkgArch where
  | unknown | i386 | amd64 | armv6 | armv7 | aarch64 | aarch64c | aarch64cb
  | powerpc | powerpc64 | powerpc64le | riscv32 | riscv64 | riscv64c | any
  deriving DecidableEq, Repr

structure OsEntry where
  os : PkgOs
  string : String
  amd64String : Option String := none
  majorVersionOnly : Bool := false
  deriving DecidableEq, Repr

def osTable : List OsEntry :=
  [{ os := .unknown, string := "Unknown" },
   { os := .freebsd, string := "FreeBSD", amd64String := some "amd64", majorVersionOnly := true },
   { os := .netbsd, string := "NetBSD", amd64String := some "x86_64", majorVersionOnly := true },
   { os := .dragonfly, string := "dragonfly", amd64String := some "x86:64" },
   { os := .linux, string := "Linux", amd64String := some "x86_64" },
   { os := .darwin, string := "Darwin", amd64String := some "x86_64", majorVersionOnly := true },
   { os := .cheribsd, string := "CheriBSD", amd64String := some "amd64", majorVersionOnly := true },
   { os := .nextbsd, string := "NextBSD", amd64String := some "amd64", majorVersionOnly := true },
   { os := .any, string := "*" }]

/-- `arch_string_table`; the spelling of amd64 depends on the OS. -/
def archStringTable : List (PkgArch × String) :=
  [(.unknown, "unknown"), (.i386, "i386"), (.armv6, "armv6"), (.armv7, "armv7"),
   (.aarch64, "aarch64"), (.aarch64c, "aarch64c"), (.aarch64cb, "aarch64cb"),
   (.powerpc, "powerpc"), (.powerpc64, "powerpc64"), (.powerpc64le, "powerpc64le"),
   (.riscv32, "riscv32"), (.riscv64, "riscv64"), (.riscv64c, "riscv64c"), (.any, "*")]

def pkgOsFromString (string : String) : PkgOs :=
  match osTable.find? fun e => e.string = string with
  | some e => e.os
  | none => .unknown

def amd64String (os : PkgOs) : Option String :=
  (osTable.find? fun e => e.os = os).bind OsEntry.amd64String

def pkgArchFromString (os : PkgOs) (string : String) : PkgArch :=
  if amd64String os = some string then .amd64
  else match archStringTable.find? fun e => e.2 = string with
    | some e => e.1
    | none => .unknown

/-- `pkg_abi_string_only_major_version`; `none` where its assertion fails. -/
def pkgAbiStringOnlyMajorVersion (os : PkgOs) : Option Bool :=
  if os = .unknown ∨ os = .any then none
  else (osTable.find? fun e => e.os = os).map OsEntry.majorVersionOnly

def pkgOsIsFreebsdLike (os : PkgOs) : Bool := os = .freebsd || os = .nextbsd

structure PkgAbi where
  os : PkgOs := .unknown
  major : Int := 0
  minor : Int := 0
  patch : Int := 0
  arch : PkgArch := .unknown
  deriving DecidableEq, Repr

/-- Why `pkg_abi_from_string` gives no ABI: it returns false with a message, or an
assertion fails, or it compares a null pointer. -/
inductive AbiError where
  | invalid (message : String)
  | abort
  deriving DecidableEq, Repr

def intMax : Int := 2 ^ 31 - 1

/-- The version field.  `none` for the version is the null pointer that `strsep` leaves. -/
structure AbiVersion where
  major : Option Int
  minor : Option Int
  version : Option (List Char)
  /-- `errstr != NULL` -/
  err : Bool

/-- The version field of a string of the given OS; an error if it has no minor version
where one belongs. -/
def abiVersion (onlyMajor : Bool) (string : String) (version : List Char) :
    Except AbiError AbiVersion :=
  if onlyMajor then
    let major := strtonum version 1 intMax
    .ok { major, minor := none, version := some version, err := major.isNone }
  else
    let (major, rest) := strsep version '.'
    match rest with
    | none => .error (.invalid ("Invalid ABI string " ++ string ++ ", missing minor OS version"))
    | some rest =>
      let (minor, version) := strsep rest '.'
      let major := strtonum major 1 intMax
      -- the minor version is read only if the major version is not a number
      let minor := if major.isNone then some (strtonum minor 1 intMax) else none
      .ok { major, minor := minor.join, version,
            err := major.isNone && minor.all Option.isNone }

def pkgAbiFromString (string : String) : Except AbiError PkgAbi :=
  let (os, iter) := strsep string.toList ':'
  let os' := pkgOsFromString (String.ofList os)
  if os' = .unknown then
    .error (.invalid ("Unknown OS '" ++ String.ofList os ++ "' in ABI string"))
  else
    let (version, iter) := (strsep (iter.getD []) ':')
    if version = [] then
      if os' = .any then .ok { os := os', arch := .any }
      else .error (.invalid ("Invalid ABI string '" ++ string ++
        "', missing version and architecture"))
    else match pkgAbiStringOnlyMajorVersion os' with
      | none => .error .abort
      | some onlyMajor => do
        let v ← abiVersion onlyMajor string version
        if v.err then
          match v.version with
          | none => .error .abort
          | some version =>
            if version = ['*'] then .ok { os := os', arch := .any }
            else .error (.invalid ("Invalid version in ABI string '" ++ string ++ "'"))
        else match iter with
          | none => .error (.invalid ("Invalid ABI string '" ++ string ++ "', missing architecture"))
          | some arch =>
            let arch' := pkgArchFromString os' (String.ofList arch)
            if arch' = .unknown then
              .error (.invalid ("Unknown architecture '" ++ String.ofList arch ++
                "' in ABI string"))
            else if os' = .dragonfly ∧ arch' ≠ .amd64 then
              .error (.invalid ("Invalid ABI string '" ++ string ++
                "', only x86:64 is supported on dragonfly."))
            else .ok { os := os', major := v.major.getD 0, minor := v.minor.getD 0, arch := arch' }

end NextBSD.Libpkg
