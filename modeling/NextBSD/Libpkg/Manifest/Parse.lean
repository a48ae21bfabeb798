import Mathlib
import NextBSD.Libpkg.Manifest.Types
import NextBSD.Library.Digits

/-!
# pkg_manifest.c: reading a manifest

The messages of `pkg_emit_error` and `dbg` are left out.
-/

namespace NextBSD.Libpkg.Manifest

open SortedInsert Digits

def isDigitByte (c : UInt8) : Bool := 48 ≤ c && c ≤ 57

def isxdigit (c : UInt8) : Bool := isDigitByte c || (97 ≤ c && c ≤ 102) || (65 ≤ c && c ≤ 70)

def hexval (c : UInt8) : UInt8 :=
  if c ≤ 57 then c - 48
  else if 97 ≤ c then c - 97 + 10
  else c - 65 + 10

def decodeBytes : Bytes → Bytes
  | [] => []
  | [c] => [c]
  | [c, c1] => [c, c1]
  | c :: c1 :: c2 :: rest =>
    if c = 37 ∧ isxdigit c1 ∧ isxdigit c2 then
      (hexval c1 <<< 4 ||| hexval c2) :: decodeBytes rest
    else c :: decodeBytes (c1 :: c2 :: rest)

/-- `url_decode`.  A byte that is decoded to `NUL` ends the string. -/
def urlDecode (s : Bytes) : Bytes := (decodeBytes s).takeWhile (· ≠ 0)

def lowerByte (c : UInt8) : UInt8 := if 65 ≤ c && c ≤ 90 then c + 32 else c

def strieq (s1 s2 : Bytes) : Bool := s1.map lowerByte = s2.map lowerByte

def digitByte (d : Nat) : UInt8 := UInt8.ofNat (48 + d)

def byteDigit (c : UInt8) : Nat := c.toNat - 48

def decimal (i : Int) : Bytes :=
  if i = 0 then [48]
  else (if i < 0 then [45] else []) ++ (printDigits 10 i.natAbs).map digitByte

/-- `ucl_object_tostring_forced` of what is a string or an integer. -/
def tostringForced : Ucl → Bytes
  | .string s => s
  | .int i => decimal i
  | .boolean b => ascii (if b then "true" else "false")
  | .object _ | .array _ => []

/-- `strtoll` in base 10, which stops at the limits of 64 bits. -/
def strtoll (s : Bytes) : Int :=
  let s := s.dropWhile isBlank
  let sign : Int := if s.head? = some 45 then -1 else 1
  let s := if s.head? = some 45 ∨ s.head? = some 43 then s.tail else s
  let n : Int := readDigits 10 ((s.takeWhile isDigitByte).map byteDigit)
  max (-2 ^ 63) (min (2 ^ 63 - 1) (sign * n))

/-- `getmode(setmode(s), 0)`: an absolute mode is octal and has twelve bits. -/
def getmode (sys : System) (s : Bytes) : Option Nat :=
  if s.head?.any isDigitByte then
    if s.all (fun c => 48 ≤ c && c ≤ 55) then
      let perm := readDigits 8 (s.map byteDigit)
      if perm ≤ 4095 then some perm else none
    else none
  else sys.symbolicMode s

/-- The second member of `struct pkg_manifest_key`. -/
inductive Attr where
  | string (f : StringField)
  | licenselogic
  | int (f : IntField)
  | vital
  | list (f : ListField)
  | config
  | dirs
  | annotations
  | deps
  | directories
  | files
  | options
  | scripts
  | luaScripts
  | message
  deriving DecidableEq, Repr

structure ManifestKey where
  key : Bytes
  attr : Attr
  validType : List UclType
  deriving DecidableEq, Repr

def manifestKeys : List ManifestKey :=
  [{ key := ascii "annotations", attr := .annotations, validType := [.object] },
    { key := ascii "abi", attr := .string .abi, validType := [.string] },
    { key := ascii "arch", attr := .string .altabi, validType := [.string] },
    { key := ascii "categories", attr := .list .categories, validType := [.array] },
    { key := ascii "comment", attr := .string .comment, validType := [.string] },
    { key := ascii "conflicts", attr := .list .conflicts, validType := [.array] },
    { key := ascii "config", attr := .config, validType := [.array] },
    { key := ascii "dep_formula", attr := .string .depFormula, validType := [.string] },
    { key := ascii "deps", attr := .deps, validType := [.object] },
    { key := ascii "desc", attr := .string .desc, validType := [.string] },
    { key := ascii "directories", attr := .directories, validType := [.object] },
    { key := ascii "dirs", attr := .dirs, validType := [.array] },
    { key := ascii "files", attr := .files, validType := [.object] },
    { key := ascii "flatsize", attr := .int .flatsize, validType := [.int] },
    { key := ascii "groups", attr := .list .groups, validType := [.array] },
    { key := ascii "licenselogic", attr := .licenselogic, validType := [.string] },
    { key := ascii "licenses", attr := .list .licenses, validType := [.array] },
    { key := ascii "lua_scripts", attr := .luaScripts, validType := [.object] },
    { key := ascii "maintainer", attr := .string .maintainer, validType := [.string] },
    { key := ascii "messages", attr := .message, validType := [.string, .array] },
    { key := ascii "message", attr := .message, validType := [.string, .array] },
    { key := ascii "name", attr := .string .name, validType := [.string, .int] },
    { key := ascii "options", attr := .options, validType := [.object] },
    { key := ascii "origin", attr := .string .origin, validType := [.string] },
    { key := ascii "path", attr := .string .repopath, validType := [.string] },
    { key := ascii "repopath", attr := .string .repopath, validType := [.string] },
    { key := ascii "pkgsize", attr := .int .pkgsize, validType := [.int] },
    { key := ascii "prefix", attr := .string .pkgPrefix, validType := [.string] },
    { key := ascii "provides", attr := .list .provides, validType := [.array] },
    { key := ascii "requires", attr := .list .requires, validType := [.array] },
    { key := ascii "scripts", attr := .scripts, validType := [.object] },
    { key := ascii "shlibs", attr := .list .shlibsRequired, validType := [.array] },
    { key := ascii "shlibs_provided", attr := .list .shlibsProvided, validType := [.array] },
    { key := ascii "shlibs_provided_ignore", attr := .list .shlibsProvidedIgnore,
      validType := [.array] },
    { key := ascii "shlibs_required", attr := .list .shlibsRequired, validType := [.array] },
    { key := ascii "shlibs_required_ignore", attr := .list .shlibsRequiredIgnore,
      validType := [.array] },
    { key := ascii "sum", attr := .string .sum, validType := [.string] },
    { key := ascii "users", attr := .list .users, validType := [.array] },
    { key := ascii "version", attr := .string .version, validType := [.string, .int] },
    { key := ascii "vital", attr := .vital, validType := [.boolean] },
    { key := ascii "www", attr := .string .www, validType := [.string] }]

def selectManifestKey (key : Bytes) : Option ManifestKey :=
  manifestKeys.find? (fun k => k.key = key)

/-! ## What the keys hold -/

variable (sys : System)

def pkgString (pkg : Pkg) (obj : Ucl) (f : StringField) : Pkg :=
  let str := tostringForced obj
  let str := if f = .desc then urlDecode str else str
  { pkg with strings := Function.update pkg.strings f (some str) }

/-- The branch of `pkg_string` for `STRING_FLAG_LICENSE`. -/
def pkgLicenselogic (pkg : Pkg) (obj : Ucl) : Except Stop Pkg :=
  let str := tostringForced obj
  if str = ascii "single" then .ok { pkg with licenselogic := .single }
  else if str = ascii "or" ∨ str = ascii "dual" then .ok { pkg with licenselogic := .or }
  else if str = ascii "and" ∨ str = ascii "multi" then .ok { pkg with licenselogic := .and }
  else .error .fatal

/-- `pkg_int`, of what is an integer. -/
def pkgInt (pkg : Pkg) (obj : Ucl) (f : IntField) : Pkg :=
  match obj with
  | .int i => { pkg with ints := Function.update pkg.ints f i }
  | _ => pkg

/-- `pkg_boolean`, of what is a boolean. -/
def pkgVital (pkg : Pkg) (obj : Ucl) : Pkg :=
  match obj with
  | .boolean b => { pkg with vital := b }
  | _ => pkg

/-- What `pkg_array` calls for a string of a list. -/
def addListed (f : ListField) : Bytes → Pkg → Except Stop Pkg :=
  match f with
  | .categories => pkgAddstring .categories
  | .licenses => pkgAddstring .licenses
  | .users => pkgAdduser
  | .groups => pkgAddgroup
  | .shlibsRequired => pkgAddshlibRequired
  | .shlibsRequiredIgnore => pkgAddshlibRequiredIgnore
  | .shlibsProvided => pkgAddshlibProvided
  | .shlibsProvidedIgnore => pkgAddshlibProvidedIgnore
  | .conflicts => pkgAddconflict
  | .provides => pkgAddprovide
  | .requires => pkgAddrequire

/-- `pkg_array` for a list of strings.  What is not a string is passed over. -/
def pkgArray (pkg : Pkg) (obj : Ucl) (f : ListField) : Except Stop Pkg :=
  obj.children.foldlM (fun pkg cur =>
    match cur.2 with
    | .string s => addListed f s pkg
    | _ => .ok pkg) pkg

/-- `pkg_array` for `MANIFEST_CONFIG_FILES`. -/
def pkgConfigFiles (pkg : Pkg) (obj : Ucl) : Except Stop Pkg :=
  obj.children.foldlM (fun pkg cur =>
    match cur.2 with
    | .string s => pkgAddconfigFile sys s pkg
    | _ => .ok pkg) pkg

/-- The variables of `pkg_set_files_from_object` and of `pkg_set_dirs_from_object`. -/
structure Attrs where
  uname : Option Bytes
  gname : Option Bytes
  sum : Option Bytes
  perm : Nat
  fflags : Nat
  mtime : Int
  symlinkTarget : Option Bytes

def Attrs.start : Attrs where
  uname := none
  gname := none
  sum := none
  perm := 0
  fflags := 0
  mtime := 0
  symlinkTarget := none

def readFflags (cur : Ucl) : Nat :=
  match cur with
  | .int i => i.toNat
  | .string s =>
    match sys.strtofflags s with
    | some (set, 0) => set
    | _ => 0
  | _ => 0

def fileAttr (attrs : Attrs) (key : Bytes) (cur : Ucl) : Attrs :=
  if strieq key (ascii "uname") ∧ cur.type = .string then
    { attrs with uname := some (tostringForced cur) }
  else if strieq key (ascii "gname") ∧ cur.type = .string then
    { attrs with gname := some (tostringForced cur) }
  else if strieq key (ascii "sum") ∧ cur.type = .string then
    { attrs with sum := some (tostringForced cur) }
  else if strieq key (ascii "perm") ∧ (cur.type = .string ∨ cur.type = .int) then
    match getmode sys (tostringForced cur) with
    | none => attrs
    | some perm => { attrs with perm := perm }
  else if strieq key (ascii "fflags") ∧ (cur.type = .int ∨ cur.type = .string) then
    { attrs with fflags := readFflags sys cur }
  else if strieq key (ascii "symlink_target") ∧ cur.type = .string then
    { attrs with symlinkTarget := some (tostringForced cur) }
  else if strieq key (ascii "mtime") ∧ (cur.type = .string ∨ cur.type = .int) then
    { attrs with mtime := strtoll (tostringForced cur) }
  else attrs

def dirAttr (attrs : Attrs) (key : Bytes) (cur : Ucl) : Attrs :=
  if strieq key (ascii "uname") ∧ cur.type = .string then
    { attrs with uname := some (tostringForced cur) }
  else if strieq key (ascii "gname") ∧ cur.type = .string then
    { attrs with gname := some (tostringForced cur) }
  else if strieq key (ascii "perm") ∧ (cur.type = .string ∨ cur.type = .int) then
    match getmode sys (tostringForced cur) with
    | none => attrs
    | some perm => { attrs with perm := perm }
  else if strieq key (ascii "fflags") ∧ (cur.type = .int ∨ cur.type = .string) then
    { attrs with fflags := readFflags sys cur }
  else attrs

def readAttrs (attr : Attrs → Bytes → Ucl → Attrs) (obj : Ucl) : Attrs :=
  obj.children.foldl (fun attrs cur =>
    match cur.1 with
    | none => attrs
    | some key => attr attrs key cur.2) Attrs.start

def pkgSetFilesFromObject (okey : Bytes) (obj : Ucl) (pkg : Pkg) : Except Stop Pkg :=
  let attrs := readAttrs (fileAttr sys) obj
  pkgAddfileAttr sys
    { path := urlDecode okey, sum := attrs.sum, uname := attrs.uname, gname := attrs.gname
      perm := attrs.perm, fflags := attrs.fflags, mtime := attrs.mtime
      symlinkTarget := attrs.symlinkTarget } pkg

def pkgSetDirsFromObject (okey : Bytes) (obj : Ucl) (pkg : Pkg) : Except Stop Pkg :=
  let attrs := readAttrs (dirAttr sys) obj
  pkgAdddirAttr sys
    { path := urlDecode okey, uname := attrs.uname, gname := attrs.gname
      perm := attrs.perm, fflags := attrs.fflags } pkg

/-- `pkg_array` for `MANIFEST_DIRS`, with `pkg_obj` for what is an object. -/
def pkgDirs (pkg : Pkg) (obj : Ucl) : Except Stop Pkg :=
  obj.children.foldlM (fun pkg cur =>
    match cur.2 with
    | .string s => pkgAdddir sys s pkg
    | .object entries =>
      entries.foldlM (fun pkg e =>
        if e.2.type = .object then pkgSetDirsFromObject sys e.1 e.2 pkg else .ok pkg) pkg
    | _ => .ok pkg) pkg

/-- `origin` and `version` in `pkg_set_deps_from_object`, which keep their values from one
alternative to the next. -/
def depAttrs (attrs : Option Bytes × Option Bytes) (self : Ucl) : Option Bytes × Option Bytes :=
  self.children.foldl (fun attrs cur =>
    match cur.1 with
    | none => attrs
    | some key =>
      if cur.2.type ≠ .string then
        if cur.2.type = .int ∧ strieq key (ascii "version") ∧ ¬ sys.noVersionForDeps then
          (attrs.1, some (tostringForced cur.2))
        else attrs
      else
        let attrs :=
          if strieq key (ascii "origin") then (some (tostringForced cur.2), attrs.2) else attrs
        if strieq key (ascii "version") ∧ ¬ sys.noVersionForDeps then
          (attrs.1, some (tostringForced cur.2))
        else attrs) attrs

def pkgSetDepsFromObject (okey : Bytes) (obj : Ucl) (pkg : Pkg) : Except Stop Pkg := do
  let alternatives :=
    match obj with
    | .array elems => elems
    | obj => [obj]
  let result ← alternatives.foldlM (fun (s : (Option Bytes × Option Bytes) × Pkg) self =>
    let attrs := depAttrs sys s.1 self
    match attrs.1 with
    | none => .ok (attrs, s.2)
    | some origin => do
      let pkg ← pkgAdddep okey (some origin) attrs.2 s.2
      .ok (attrs, pkg)) ((none, none), pkg)
  .ok result.2

def scriptTypeStr (str : Bytes) : Option ScriptType :=
  if str = ascii "deinstall" then some .deinstall
  else if str = ascii "install" then some .install
  else if str = ascii "post-deinstall" then some .postDeinstall
  else if str = ascii "post-install" then some .postInstall
  else if str = ascii "pre-deinstall" then some .preDeinstall
  else if str = ascii "pre-install" then some .preInstall
  else none

def luaScriptTypeStr (str : Bytes) : Option LuaType :=
  if str = ascii "post-deinstall" then some .postDeinstall
  else if str = ascii "post-install" then some .postInstall
  else if str = ascii "pre-deinstall" then some .preDeinstall
  else if str = ascii "pre-install" then some .preInstall
  else none

/-- `pkg_lua_script_from_ucl`, which stops at what is not a string.  Its return value is not
looked at. -/
def pkgLuaScriptFromUcl (pkg : Pkg) (obj : Ucl) (type : LuaType) : Pkg :=
  let scripts := (obj.children.takeWhile (fun cur => cur.2.type = .string)).map
    (fun cur => tostringForced cur.2)
  { pkg with luaScripts := Function.update pkg.luaScripts type (pkg.luaScripts type ++ scripts) }

/-- The turns of the loop of `pkg_obj`, one for each attribute. -/
def objEntry (attr : Attr) (key : Bytes) (cur : Ucl) (pkg : Pkg) : Except Stop Pkg :=
  match attr, cur with
  | .deps, .object _ | .deps, .array _ => pkgSetDepsFromObject sys key cur pkg
  | .directories, .boolean _ | .directories, .string _ => pkgAdddir sys (urlDecode key) pkg
  | .directories, .object _ => pkgSetDirsFromObject sys key cur pkg
  | .files, .string s =>
    pkgAddfileAttr sys
      { path := urlDecode key, sum := if 2 ≤ s.length then some s else none, uname := none
        gname := none, perm := 0, fflags := 0, mtime := 0, symlinkTarget := none } pkg
  | .files, .object _ => pkgSetFilesFromObject sys key cur pkg
  | .options, .string s => pkgAddoption key s pkg
  | .options, .boolean b => pkgAddoption key (ascii (if b then "on" else "off")) pkg
  | .scripts, .string s =>
    match scriptTypeStr key with
    | none => .ok pkg
    | some type => .ok (pkgAddscript (urlDecode s) type pkg)
  | .luaScripts, .array _ =>
    match luaScriptTypeStr key with
    | none => .ok pkg
    | some type => .ok (pkgLuaScriptFromUcl pkg cur type)
  | .annotations, .string s => pkgKvAdd key s pkg
  | _, _ => .ok pkg

def pkgObj (pkg : Pkg) (obj : Ucl) (attr : Attr) : Except Stop Pkg :=
  obj.children.foldlM (fun pkg cur =>
    match cur.1 with
    | none => .ok pkg
    | some key => objEntry sys attr key cur.2 pkg) pkg

def Ucl.findKey (obj : Ucl) (key : Bytes) : Option Ucl :=
  match obj with
  | .object entries => (entries.find? (fun e => e.1 = key)).map Prod.snd
  | _ => none

def Ucl.findString (obj : Ucl) (key : Bytes) : Option Bytes :=
  match obj.findKey key with
  | some (.string s) => some s
  | _ => none

def messageType (s : Option Bytes) : MessageType :=
  match s with
  | none => .always
  | some s =>
    if strieq s (ascii "install") then .install
    else if strieq s (ascii "remove") then .remove
    else if strieq s (ascii "upgrade") then .upgrade
    else .always

def pushMessage (pkg : Pkg) (msg : Message) : Pkg := { pkg with message := pkg.message ++ [msg] }

def messageEntry (pkg : Pkg) (cur : Ucl) : Except Stop Pkg :=
  match cur.findString (ascii "message") with
  | none => .error .fatal
  | some str =>
    let type := messageType (cur.findString (ascii "type"))
    if type ≠ .upgrade then
      .ok (pushMessage pkg
        { str := str, type := type, minimumVersion := none, maximumVersion := none })
    else
      .ok (pushMessage pkg
        { str := str, type := type, minimumVersion := cur.findString (ascii "minimum_version")
          maximumVersion := cur.findString (ascii "maximum_version") })

def pkgMessageFromUcl (pkg : Pkg) (obj : Ucl) : Except Stop Pkg :=
  match obj with
  | .string s =>
    .ok (pushMessage pkg
      { str := s, type := .always, minimumVersion := none, maximumVersion := none })
  | obj => obj.children.foldlM (fun pkg cur => messageEntry pkg cur.2) pkg

def parseData (attr : Attr) (pkg : Pkg) (cur : Ucl) : Except Stop Pkg :=
  match attr with
  | .string f => .ok (pkgString pkg cur f)
  | .licenselogic => pkgLicenselogic pkg cur
  | .int f => .ok (pkgInt pkg cur f)
  | .vital => .ok (pkgVital pkg cur)
  | .list f => pkgArray pkg cur f
  | .config => pkgConfigFiles sys pkg cur
  | .dirs => pkgDirs sys pkg cur
  | .message => pkgMessageFromUcl pkg cur
  | attr => pkgObj sys pkg cur attr

/-- The loop of `parse_manifest`. -/
def parseEntry (pkg : Pkg) (key : Bytes) (cur : Ucl) : Except Stop Pkg :=
  match selectManifestKey key with
  | none => .ok pkg
  | some sk => if cur.type ∈ sk.validType then parseData sys sk.attr pkg cur else .ok pkg

def parseManifest (pkg : Pkg) (obj : Ucl) : Except Stop Pkg :=
  obj.children.foldlM (fun pkg cur =>
    match cur.1 with
    | none => .ok pkg
    | some key => parseEntry sys pkg key cur.2) pkg

def validEntry (key : Bytes) (cur : Ucl) : Bool :=
  match selectManifestKey key with
  | none => true
  | some sk => cur.type ∈ sk.validType

def pkgParseManifestUcl (pkg : Pkg) (obj : Ucl) : Except Stop Pkg :=
  if obj.children.all (fun cur => cur.1.all (fun key => validEntry key cur.2)) then
    parseManifest sys pkg obj
  else .error .fatal

end NextBSD.Libpkg.Manifest
