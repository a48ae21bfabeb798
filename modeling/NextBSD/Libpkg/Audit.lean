import NextBSD.Libpkg.VersionOrder
import Mathlib.Order.Compare

/-!
# pkg_audit.c: the search for vulnerabilities

The parsed entries are laid out as items, one for each package name glob, sorted by what a glob
starts with before its first special character.  Names are bytes before their `NUL`.
-/

namespace NextBSD.Libpkg

/-- `EQ`, `LT`, `LTE`, `GT` and `GTE`; `none` stands for a type that is not set. -/
inductive AuditOp where
  | none
  | eq
  | lt
  | lte
  | gt
  | gte
  deriving DecidableEq, Repr

structure AuditVersion where
  version : Option String
  type : AuditOp
  deriving DecidableEq, Repr

structure AuditVersionsRange where
  v1 : AuditVersion
  v2 : AuditVersion
  deriving DecidableEq, Repr

/-- `struct pkg_audit_package`.  A name may be `NULL`. -/
structure AuditPackage where
  names : List (Option (List UInt8))
  versions : List AuditVersionsRange
  deriving DecidableEq, Repr

/-- `struct pkg_audit_entry`, named by its `id`. -/
structure AuditEntry where
  id : String
  packages : List AuditPackage
  deriving DecidableEq, Repr

/-- `struct pkg_audit_item`.  The element that ends the array is not one of the items. -/
structure AuditItem where
  e : AuditEntry
  pkgIdx : Nat
  nameIdx : Nat
  noglobLen : Nat
  nextPfxIncr : Nat
  deriving DecidableEq, Repr

structure AuditIssue where
  audit : AuditEntry
  pkgIdx : Nat
  deriving DecidableEq, Repr

/-- The sign of `strncmp`, which compares the bytes as unsigned ones. -/
@[grind =]
def strncmp : List UInt8 → List UInt8 → Nat → Int
  | _, _, 0 => 0
  | [], [], _ + 1 => 0
  | [], _ :: _, _ + 1 => -1
  | _ :: _, [], _ + 1 => 1
  | a :: s1, b :: s2, n + 1 => if a = b then strncmp s1 s2 n else if a < b then -1 else 1

def isGlobByte (c : UInt8) : Bool := c ∈ [42, 63, 91, 123, 92]

def strNoglobLen (s : List UInt8) : Nat := (s.takeWhile (fun c => !isGlobByte c)).length

def AuditItem.pkgname (it : AuditItem) : List UInt8 :=
  match it.e.packages[it.pkgIdx]? with
  | none => []
  | some p => (p.names.getD it.nameIdx none).getD []

def auditEntryCmp (e1 e2 : AuditItem) : Int :=
  let minLen := min e1.noglobLen e2.noglobLen
  let result := strncmp e1.pkgname e2.pkgname minLen
  if result = 0 then
    if e1.noglobLen < e2.noglobLen then -1
    else if e1.noglobLen > e2.noglobLen then 1
    else result
  else result

def packageItems (e : AuditEntry) (pkgIdx : Nat) (p : AuditPackage) : List AuditItem :=
  p.names.zipIdx.filterMap (fun name =>
    name.1.map (fun pkgname =>
      { e := e, pkgIdx := pkgIdx, nameIdx := name.2, noglobLen := strNoglobLen pkgname,
        nextPfxIncr := 1 }))

def auditItems (entries : List AuditEntry) : List AuditItem :=
  entries.flatMap (fun e => e.packages.zipIdx.flatMap (fun p => packageItems e p.2 p.1))

/-- `for (i = 0; tofill > 1; i++, tofill--) base[i].next_pfx_incr = tofill`. -/
def fillIncrs (incr : Nat → Nat) (base : Nat) : Nat → (Nat → Nat)
  | 0 => incr
  | 1 => incr
  | tofill + 2 => fillIncrs (Function.update incr base (tofill + 2)) (base + 1) (tofill + 1)

/-- What the second loop carries: the increments and `tofill`. -/
structure IncrState where
  incr : Nat → Nat
  tofill : Nat

/-- The turn of the loop for the item before `n` and the item `n`. -/
def incrStep (prev cur : AuditItem) (n : Nat) (s : IncrState) : IncrState :=
  if prev.noglobLen ≠ cur.noglobLen then
    { incr := fillIncrs s.incr (n - s.tofill) s.tofill, tofill := 1 }
  else if prev.pkgname = cur.pkgname then { s with tofill := s.tofill + 1 }
  else { s with tofill := 1 }

def incrLoop : AuditItem → List AuditItem → Nat → IncrState → IncrState
  | _, [], _, s => s
  | prev, cur :: rest, n, s => incrLoop cur rest (n + 1) (incrStep prev cur n s)

def nextPfxIncrs (items : List AuditItem) : Nat → Nat :=
  match items with
  | [] => fun _ => 1
  | first :: rest => (incrLoop first rest 1 { incr := fun _ => 1, tofill := 0 }).incr

/-- `(size_t)c` for a `char`, which is signed. -/
def charToSize (c : UInt8) : Nat := if c < 128 then c.toNat else 2 ^ 64 - 256 + c.toNat

def firstIndex (s : List UInt8) : Nat := charToSize (s.headD 0)

/-- The inner loop for the byte `n`, from the item `i` on. -/
def advanceTo (items : List AuditItem) (n i : Nat) : Nat :=
  i + ((items.drop i).takeWhile (fun it => firstIndex it.pkgname < n)).length

def fillFirstByte (items : List AuditItem) : Nat → Nat → Nat → List Nat
  | 0, _, _ => []
  | todo + 1, n, i => advanceTo items n i :: fillFirstByte items todo (n + 1) (advanceTo items n i)

def firstByteIdx (items : List AuditItem) : List Nat := 0 :: fillFirstByte items 255 1 0

/-- What `qsort` may leave of the items of the entries. -/
structure Sorted (entries : List AuditEntry) (sorted : List AuditItem) : Prop where
  perm : sorted.Perm (auditItems entries)
  pairwise : sorted.Pairwise (fun e1 e2 => auditEntryCmp e1 e2 ≤ 0)

/-- What `pkg_audit_preprocess` makes of the sorted items: the items with their increments, and
the table of first bytes. -/
def auditPreprocess (sorted : List AuditItem) : List AuditItem × List Nat :=
  let items := sorted.mapIdx (fun i it => { it with nextPfxIncr := nextPfxIncrs sorted i })
  (items, firstByteIdx items)

structure AuditEnv where
  /-- `fnmatch(pattern, string, 0) == 0`. -/
  fnmatch : List UInt8 → List UInt8 → Bool
  regexec : String → List UInt8 → Bool
  auditIgnoreGlob : List (List UInt8)
  auditIgnoreRegex : List String

def auditVersionMatch (pkgversion : String) (v : AuditVersion) : Bool :=
  match v.version with
  | none => true
  | some version =>
    match pkgVersionCmp (pkgversion.length + version.length) pkgversion version with
    | none => false
    | some r =>
      if r = -1 then v.type = .lt || v.type = .lte
      else if r = 0 then v.type = .eq || v.type = .lte || v.type = .gte
      else if r = 1 then v.type = .gt || v.type = .gte
      else false

variable (env : AuditEnv)

def matchUclLists (buf : List UInt8) : Bool :=
  env.auditIgnoreGlob.any (fun glob => env.fnmatch glob buf) ||
    env.auditIgnoreRegex.any (fun regex => env.regexec regex buf)

structure AuditQuery where
  name : List UInt8
  version : Option String
  stopQuick : Bool

/-- `res`, what has been added to `*ai`, and whether the function has returned. -/
structure AuditSearch where
  res : Bool
  issues : List AuditIssue
  returned : Bool
  deriving DecidableEq, Repr

def inRanges (version : Option String) (versions : List AuditVersionsRange) : Bool :=
  match version with
  | none => true
  | some version =>
    versions.any (fun vers =>
      auditVersionMatch version vers.v1 && auditVersionMatch version vers.v2)

/-- `e->packages.d[pkg_idx].versions`. -/
def AuditItem.versions (it : AuditItem) : List AuditVersionsRange :=
  match it.e.packages[it.pkgIdx]? with
  | none => []
  | some p => p.versions

def examineItem (q : AuditQuery) (it : AuditItem) (s : AuditSearch) : AuditSearch :=
  if ¬ env.fnmatch it.pkgname q.name then s
  else
    let s := if inRanges q.version it.versions then
        { s with res := true, issues := s.issues ++ [{ audit := it.e, pkgIdx := it.pkgIdx }] }
      else s
    if s.res && q.stopQuick then { s with returned := true } else s

/-- The inner loop over `n` items; `none` is a read past the items. -/
def examineItems (q : AuditQuery) : Nat → List AuditItem → AuditSearch → Option AuditSearch
  | 0, _, s => some s
  | _ + 1, [], _ => none
  | n + 1, it :: a, s =>
    let s := examineItem env q it s
    if s.returned then some s else examineItems q n a s

/-- The outer loop, from the items `a` on.  An increment is never 0. -/
def auditLoop (q : AuditQuery) : List AuditItem → AuditSearch → Option AuditSearch
  | [], s => some s
  | it :: a, s =>
    let cmp := strncmp q.name it.pkgname it.noglobLen
    if cmp > 0 then auditLoop q (a.drop (it.nextPfxIncr - 1)) s
    else if cmp < 0 then some s
    else
      match examineItems env q it.nextPfxIncr (it :: a) s with
      | none => none
      | some s => if s.returned then some s else auditLoop q (a.drop (it.nextPfxIncr - 1)) s
termination_by a => a.length
decreasing_by
  all_goals
    simp only [List.length_drop, List.length_cons]
    omega

/-- `pkg_audit_is_vulnerable`, once the entries are parsed.  There is no result where the table
is read out of its range. -/
def auditIsVulnerable (items : List AuditItem × List Nat) (q : AuditQuery) : Option AuditSearch :=
  let start : AuditSearch := { res := false, issues := [], returned := false }
  if matchUclLists env q.name then some start
  else
    match items.2[firstIndex q.name]? with
    | none => none
    | some first => auditLoop env q (items.1.drop first) start

end NextBSD.Libpkg
