import NextBSD.Libpkg.Manifest.Parse

/-!
# pkg_manifest.c: writing a manifest

What the emission stores in the package itself (the abi, the legacy architecture and the sums that
are missing) is part of the object and is otherwise left out.
-/

namespace NextBSD.Libpkg.Manifest

open Digits

/-- A digit of `%x`. -/
def hexDigit (n : Nat) : UInt8 := UInt8.ofNat (if n < 10 then 48 + n else 87 + n)

def isPlain (c : UInt8) : Bool := c < 128 && c ≠ 37

def encodeByte (c : UInt8) : Bytes :=
  if isPlain c then [c] else [37, hexDigit (c.toNat / 16), hexDigit (c.toNat % 16)]

def urlencode (src : Bytes) : Bytes := src.flatMap encodeByte

/-- The digits of `%#4.4o`: at least four, and the first one is zero. -/
def octalDigits (perm : Nat) : List Nat :=
  let digits := printDigits 8 perm
  let digits := List.replicate (4 - digits.length) 0 ++ digits
  if digits.head? = some 0 then digits else 0 :: digits

/-- `perm_str`, which has room for five characters. -/
def permStr (perm : Nat) : Bytes := ((octalDigits perm).take 5).map digitByte

/-- `PKG_MANIFEST_EMIT_COMPACT`, `PKG_MANIFEST_EMIT_NOFILES` and
`PKG_MANIFEST_EMIT_LOCAL_METADATA`. -/
structure EmitFlags where
  compact : Bool
  nofiles : Bool
  localMetadata : Bool
  deriving DecidableEq, Repr

/-- What is inserted under a key.  Nothing is inserted for `NULL`. -/
def insertKey (key : Bytes) (elt : Option Ucl) : List (Bytes × Ucl) :=
  elt.toList.map (fun elt => (key, elt))

def exportString (pkg : Pkg) (key : Bytes) (f : StringField) : List (Bytes × Ucl) :=
  insertKey key ((pkg.strings f).map .string)

def exportInt (pkg : Pkg) (key : Bytes) (f : IntField) : List (Bytes × Ucl) :=
  [(key, .int (pkg.ints f))]

def emitSeq (key : Bytes) (seq : List Ucl) : List (Bytes × Ucl) :=
  if seq.isEmpty then [] else [(key, .array seq)]

def emitMap (key : Bytes) (map : List (Bytes × Ucl)) : List (Bytes × Ucl) :=
  if map.isEmpty then [] else [(key, .object map)]

def licenselogicStr : LicenseLogic → Bytes
  | .single => ascii "single"
  | .and => ascii "and"
  | .or => ascii "or"

def ListField.key : ListField → Bytes
  | .categories => ascii "categories"
  | .licenses => ascii "licenses"
  | .users => ascii "users"
  | .groups => ascii "groups"
  | .shlibsRequired => ascii "shlibs_required"
  | .shlibsRequiredIgnore => ascii "shlibs_required_ignore"
  | .shlibsProvided => ascii "shlibs_provided"
  | .shlibsProvidedIgnore => ascii "shlibs_provided_ignore"
  | .conflicts => ascii "conflicts"
  | .provides => ascii "provides"
  | .requires => ascii "requires"

def emitList (pkg : Pkg) (f : ListField) : List (Bytes × Ucl) :=
  emitSeq f.key ((pkg.lists f).map .string)

def listOrder : List ListField :=
  [.categories, .users, .groups, .shlibsRequired, .shlibsRequiredIgnore, .shlibsProvided,
    .shlibsProvidedIgnore, .conflicts, .provides, .requires]

def depEntry (dep : Dep) : Bytes × Ucl :=
  (dep.name, .object
    (insertKey (ascii "origin") (dep.origin.map .string) ++
      insertKey (ascii "version") (dep.version.map .string)))

def kvEntry (kv : Kv) : Bytes × Ucl := (kv.key, .string kv.value)

def Kv.internal (kv : Kv) : Bool := kv.key = ascii "repository" || kv.key = ascii "relocated"

def emitAnnotations (flags : EmitFlags) (pkg : Pkg) : List (Bytes × Ucl) :=
  if pkg.annotations.isEmpty then []
  else [(ascii "annotations",
    .object ((pkg.annotations.filter (fun kv => !kv.internal || flags.localMetadata)).map kvEntry))]

variable (sys : System)

/-- `dp`: the path under the prefix, moved to the other prefix. -/
def emittedPath (pkg : Pkg) (path : Bytes) : Bytes :=
  match pkg.oprefix, pkg.strings .pkgPrefix with
  | some oprefix, some pkgPrefix =>
    let l := pkgPrefix.length
    if pkgPrefix <+: path ∧ ((path.drop l).head? = some 47 ∨ l = 1) then
      ( oprefix ++ (if l = 1 then [47] else []) ++ path.drop l).take (MAXPATHLEN - 1)
    else path
  | _, _ => path

def emitFflags (fflags : Nat) : List (Bytes × Ucl) :=
  if fflags = 0 then []
  else insertKey (ascii "fflags") ((nonempty (sys.fflagstostr fflags)).map .string)

def fileAttrs (file : File) : List (Bytes × Ucl) :=
  [(ascii "sum", .string (file.sum.getD (ascii "-"))),
    (ascii "uname", .string (file.uname.getD (ascii "root"))),
    (ascii "gname", .string (file.gname.getD (ascii "wheel"))),
    (ascii "perm", .string (permStr file.perm))] ++
    emitFflags sys file.fflags ++
    insertKey (ascii "symlink_target") (file.symlinkTarget.map .string) ++
    (if 0 < file.mtime then [(ascii "mtime", .int file.mtime)] else [])

def fileEntry (pkg : Pkg) (file : File) : Bytes × Ucl :=
  (urlencode (emittedPath pkg file.path), .object (fileAttrs sys file))

def dirAttrs (dir : Dir) : List (Bytes × Ucl) :=
  [(ascii "uname", .string (dir.uname.getD (ascii "root"))),
    (ascii "gname", .string (dir.gname.getD (ascii "wheel"))),
    (ascii "perm", .string (permStr dir.perm))] ++
    emitFflags sys dir.fflags

def dirEntry (dir : Dir) : Bytes × Ucl := (urlencode dir.path, .object (dirAttrs sys dir))

def scriptOrder : List ScriptType :=
  [.preInstall, .postInstall, .preDeinstall, .postDeinstall, .install, .deinstall]

def ScriptType.key : ScriptType → Bytes
  | .preInstall => ascii "pre-install"
  | .postInstall => ascii "post-install"
  | .preDeinstall => ascii "pre-deinstall"
  | .postDeinstall => ascii "post-deinstall"
  | .install => ascii "install"
  | .deinstall => ascii "deinstall"

def scriptEntry (pkg : Pkg) (type : ScriptType) : List (Bytes × Ucl) :=
  insertKey type.key ((pkg.scripts type).map (fun s => .string (trim (urlencode s))))

def luaOrder : List LuaType := [.preInstall, .postInstall, .preDeinstall, .postDeinstall]

def LuaType.key : LuaType → Bytes
  | .preInstall => ascii "pre-install"
  | .postInstall => ascii "post-install"
  | .preDeinstall => ascii "pre-deinstall"
  | .postDeinstall => ascii "post-deinstall"

/-- `pkg_lua_script_to_ucl`. -/
def luaEntry (pkg : Pkg) (type : LuaType) : List (Bytes × Ucl) :=
  emitSeq type.key ((pkg.luaScripts type).map (fun s => .string (trim s)))

def messageTypeStr : MessageType → Option Bytes
  | .always => none
  | .install => some (ascii "install")
  | .upgrade => some (ascii "upgrade")
  | .remove => some (ascii "remove")

/-- `pkg_message_to_ucl` of one message. -/
def messageUcl (msg : Message) : Ucl :=
  .object ([(ascii "message", .string (trim msg.str))] ++
    insertKey (ascii "type") ((messageTypeStr msg.type).map .string) ++
    insertKey (ascii "maximum_version") (msg.maximumVersion.map .string) ++
    insertKey (ascii "minimum_version") (msg.minimumVersion.map .string))

def emitHead (flags : EmitFlags) (pkg : Pkg) (abi : Bytes) : List (Bytes × Ucl) :=
  exportString pkg (ascii "name") .name ++
    exportString pkg (ascii "origin") .origin ++
    exportString pkg (ascii "version") .version ++
    exportString pkg (ascii "comment") .comment ++
    exportString pkg (ascii "maintainer") .maintainer ++
    exportString pkg (ascii "www") .www ++
    [(ascii "abi", .string abi), (ascii "arch", .string (sys.archToLegacy abi))] ++
    exportString pkg (ascii "prefix") .pkgPrefix ++
    exportString pkg (ascii "sum") .sum ++
    exportInt pkg (ascii "flatsize") .flatsize ++
    exportString pkg (ascii "dep_formula") .depFormula ++
    (if pkg.installed ∧ flags.localMetadata then exportInt pkg (ascii "timestamp") .timestamp
      else []) ++
    exportString pkg (ascii "path") .repopath ++
    exportString pkg (ascii "repopath") .repopath ++
    [(ascii "licenselogic", .string (licenselogicStr pkg.licenselogic))]

def emitSize (pkg : Pkg) : List (Bytes × Ucl) :=
  (if 0 < pkg.ints .pkgsize then exportInt pkg (ascii "pkgsize") .pkgsize else []) ++
    (if pkg.vital then [(ascii "vital", .boolean pkg.vital)] else [])

def emitDesc (pkg : Pkg) : List (Bytes × Ucl) :=
  insertKey (ascii "desc") ((pkg.strings .desc).map (fun desc => .string (trim (urlencode desc))))

def emitFiles (pkg : Pkg) : List (Bytes × Ucl) :=
  emitMap (ascii "files") (pkg.files.map (fileEntry sys pkg))

def emitConfigFiles (pkg : Pkg) : List (Bytes × Ucl) :=
  emitSeq (ascii "config") (pkg.configFiles.map (fun path => .string (urlencode path)))

def emitDirs (pkg : Pkg) : List (Bytes × Ucl) :=
  emitMap (ascii "directories") (pkg.dirs.map (dirEntry sys))

def emitScripts (pkg : Pkg) : List (Bytes × Ucl) :=
  emitMap (ascii "scripts") (scriptOrder.flatMap (scriptEntry pkg))

def emitLuaScripts (pkg : Pkg) : List (Bytes × Ucl) :=
  emitMap (ascii "lua_scripts") (luaOrder.flatMap (luaEntry pkg))

def emitMessage (pkg : Pkg) : List (Bytes × Ucl) :=
  emitSeq (ascii "messages") (pkg.message.map messageUcl)

def emitEntries (flags : EmitFlags) (pkg : Pkg) (abi : Bytes) : List (Bytes × Ucl) :=
  emitHead sys flags pkg abi ++
    emitList pkg .licenses ++
    emitSize pkg ++
    emitDesc pkg ++
    emitMap (ascii "deps") (pkg.depends.map depEntry) ++
    listOrder.flatMap (emitList pkg) ++
    emitMap (ascii "options") (pkg.options.map kvEntry) ++
    emitAnnotations flags pkg ++
    (if flags.compact then []
      else
        (if flags.nofiles then [] else emitFiles sys pkg ++ emitConfigFiles pkg ++ emitDirs sys pkg) ++
          emitScripts pkg ++
          emitLuaScripts pkg) ++
    emitMessage pkg

/-- `NULL` is read: for a package without an architecture, and for one with files to move from no
prefix. -/
def readsNull (flags : EmitFlags) (pkg : Pkg) : Bool :=
  ((pkg.strings .abi).isNone && (pkg.strings .altabi).isNone) ||
    ( pkg.oprefix.isSome && (pkg.strings .pkgPrefix).isNone && !flags.compact && !flags.nofiles &&
      !pkg.files.isEmpty)

/-- `pkg_emit_object`, with no object where the program ends. -/
def pkgEmitObject (flags : EmitFlags) (pkg : Pkg) : Option Ucl :=
  if readsNull flags pkg then none
  else some (.object (emitEntries sys flags pkg
    (((pkg.strings .abi).orElse (fun _ => pkg.strings .altabi)).getD [])))

end NextBSD.Libpkg.Manifest
