import NextBSD.Library.Interning
import NextBSD.Sudoers.LdapUtil
import NextBSD.Sudoers.Match
import Mathlib.Data.List.Sort

/-!
# LDIF sudoers

`parse_ldif.c`: the objects of an LDIF file become roles, and the roles, in the order of their
`sudoOrder`, become user specifications.  An object is the list of its attributes, after
`ldif_parse_attribute`.  The objects are all below the base.  The lists of users, hosts and run-as
names are cached, and a list is compared with another by its address.  `ω` holds the values of
`sudoOrder`, doubles that compare with `<`.
-/

namespace NextBSD.Sudoers

open Interning

def strcasecmp (a b : String) : Ordering :=
  List.compareLex (fun c d => compare c.toLower d.toLower) a.toList b.toList

/-- `struct sudo_role`, with `L` for the lists that are cached. -/
structure SudoRole (ω L : Type) where
  cn : Option String
  notbefore : Option String
  notafter : Option String
  order : ω
  cmnds : List String
  hosts : L
  users : L
  runasusers : L
  runasgroups : L
  options : List String

def SudoRole.map {ω L L' : Type} (f : L → L') (role : SudoRole ω L) : SudoRole ω L' :=
  { role with
    hosts := f role.hosts
    users := f role.users
    runasusers := f role.runasusers
    runasgroups := f role.runasgroups }

abbrev ReadRole (ω : Type) := SudoRole ω (List String)
abbrev CachedRole (ω : Type) := SudoRole ω (Kept (List String))

def CachedRole.strings {ω : Type} (role : CachedRole ω) : ReadRole ω := role.map Kept.value

/-- `ldif_store_string` for a sorted list. -/
def ldifStoreSorted (str : String) : List String → List String
  | [] => [str]
  | s :: strlist =>
    if (strcasecmp str s).isLE then str :: s :: strlist else s :: ldifStoreSorted str strlist

def unquoteCn : List Char → List Char
  | '\\' :: c :: src => c :: unquoteCn src
  | c :: src => c :: unquoteCn src
  | [] => []

variable {ω : Type}

def sudoRoleAlloc [Zero ω] : ReadRole ω :=
  { cn := none, notbefore := none, notafter := none, order := 0, cmnds := [], hosts := [],
    users := [], runasusers := [], runasgroups := [], options := [] }

def setAttribute (strtod : String → ω) (role : ReadRole ω) (name attr : String) : ReadRole ω :=
  if strcaseeq name "cn" then { role with cn := some (String.ofList (unquoteCn attr.toList)) }
  else if strcaseeq name "sudoUser" then { role with users := ldifStoreSorted attr role.users }
  else if strcaseeq name "sudoHost" then { role with hosts := ldifStoreSorted attr role.hosts }
  else if strcaseeq name "sudoRunAs" then
    { role with runasusers := ldifStoreSorted attr role.runasusers }
  else if strcaseeq name "sudoRunAsUser" then
    { role with runasusers := ldifStoreSorted attr role.runasusers }
  else if strcaseeq name "sudoRunAsGroup" then
    { role with runasgroups := ldifStoreSorted attr role.runasgroups }
  else if strcaseeq name "sudoCommand" then { role with cmnds := role.cmnds ++ [attr] }
  else if strcaseeq name "sudoOption" then { role with options := role.options ++ [attr] }
  else if strcaseeq name "sudoOrder" then { role with order := strtod attr }
  else if strcaseeq name "sudoNotBefore" then { role with notbefore := some attr }
  else if strcaseeq name "sudoNotAfter" then { role with notafter := some attr }
  else role

/-- One line of an object.  What stands before its `objectClass` is lost. -/
def storeAttribute [Zero ω] (strtod : String → ω) (role : Option (ReadRole ω)) (attr : String × String) :
    Option (ReadRole ω) :=
  if strcaseeq attr.1 "objectClass" && strcaseeq attr.2 "sudoRole" then
    some (setAttribute strtod (role.getD sudoRoleAlloc) attr.1 attr.2)
  else role.map (fun role => setAttribute strtod role attr.1 attr.2)

abbrev LdifEntry := List (String × String)

def readRole [Zero ω] (strtod : String → ω) (entry : LdifEntry) : Option (ReadRole ω) :=
  entry.foldl (storeAttribute strtod) none

def strListCmp (a b : List String) : Ordering := List.compareLex strcasecmp a b

/-- The cache in the order of insertion.  Of its lists at most one compares equal to another
list, so that the tree finds the same one. -/
def strListCache (cache : List (Kept (List String))) (strlist : List String) :
    List (Kept (List String)) × Kept (List String) :=
  intern strListCmp cache strlist

/-- What `sudoers_parse_ldif` has read. -/
structure LdifState (ω : Type) where
  usercache : List (Kept (List String))
  groupcache : List (Kept (List String))
  hostcache : List (Kept (List String))
  roles : List (CachedRole ω)
  defaults : List Defaults

def LdifState.empty : LdifState ω :=
  { usercache := [], groupcache := [], hostcache := [], roles := [], defaults := [] }

/-- The caches take users, hosts, run-as users and run-as groups, in this order. -/
def cacheRole (st : LdifState ω) (role : ReadRole ω) : LdifState ω :=
  let users := strListCache st.usercache role.users
  let hosts := strListCache st.hostcache role.hosts
  let runasusers := strListCache users.1 role.runasusers
  let runasgroups := strListCache st.groupcache role.runasgroups
  { st with
    usercache := runasusers.1
    hostcache := hosts.1
    groupcache := runasgroups.1
    roles :=
      st.roles ++
        [{ role with
           users := users.2
           hosts := hosts.2
           runasusers := runasusers.2
           runasgroups := runasgroups.2 }] }

def ldifStoreOptions (defaults : List Defaults) (options : List String) : List Defaults :=
  defaults ++
    options.map (fun opt =>
      { var := (sudoLdapParseOption opt).2.1, val := (sudoLdapParseOption opt).2.2, binding := [],
        type := .generic, op := (sudoLdapParseOption opt).1 })

def ReadRole.isDefaults (role : ReadRole ω) : Bool := role.cn.any (fun cn => strcaseeq cn "defaults")

/-- The role is no `defaults` object and has users, hosts and commands. -/
def ReadRole.isComplete (role : ReadRole ω) : Bool :=
  !role.isDefaults && !role.users.isEmpty && !role.hosts.isEmpty && !role.cmnds.isEmpty

def finishEntry [Zero ω] (strtod : String → ω) (st : LdifState ω) (entry : LdifEntry) : LdifState ω :=
  match readRole strtod entry with
  | none => st
  | some role =>
    if role.isDefaults then
      { st with defaults := ldifStoreOptions st.defaults role.options }
    else if role.isComplete then cacheRole st role
    else st

variable (env : LdapEnv) (storeOptions : Bool)

def rolePrivilege (role : ReadRole ω) : Privilege :=
  sudoLdapRoleToPriv env role.hosts role.runasusers role.runasgroups role.cmnds role.options
    role.notbefore role.notafter storeOptions

/-- The command specs of a privilege join those of the one before, with its run-as lists if they
are reused. -/
def joinPrivilege (reuseRunas : Bool) (prev priv : Privilege) : Privilege :=
  let specs :=
    match reuseRunas, prev.cmndlist.getLast? with
    | true, some last =>
      priv.cmndlist.map (fun spec =>
        { spec with runasuserlist := last.runasuserlist, runasgrouplist := last.runasgrouplist })
    | _, _ => priv.cmndlist
  { prev with cmndlist := prev.cmndlist ++ specs }

def addPrivilege (reusePrivilege reuseRunas : Bool) (us : Userspec) (priv : Privilege) : Userspec :=
  if reusePrivilege && !us.privileges.isEmpty then
    { us with privileges := us.privileges.modifyLast (fun prev => joinPrivilege reuseRunas prev priv) }
  else { us with privileges := us.privileges ++ [priv] }

def roleToSudoers (tree : List Userspec) (role : ReadRole ω)
    (reuseUserspec reusePrivilege reuseRunas : Bool) : List Userspec :=
  let priv := rolePrivilege env storeOptions role
  if reuseUserspec then
    tree.modifyLast (fun us => addPrivilege reusePrivilege reuseRunas us priv)
  else tree ++ [{ users := role.users.map nameToMember, privileges := [priv] }]

/-- The loop of `ldif_to_sudoers`, with the role before. -/
def convertRoles (tree : List Userspec) : Option (CachedRole ω) → List (CachedRole ω) →
    List Userspec
  | _, [] => tree
  | prev, role :: roles =>
    let reuseUserspec := prev.any (fun p => role.users.addr = p.users.addr)
    let reusePrivilege :=
      reuseUserspec && !storeOptions && prev.any (fun p => role.hosts.addr = p.hosts.addr)
    let reuseRunas :=
      reusePrivilege && prev.any (fun p => role.runasusers.addr = p.runasusers.addr &&
        role.runasgroups.addr = p.runasgroups.addr)
    convertRoles (roleToSudoers env storeOptions tree role.strings reuseUserspec reusePrivilege
      reuseRunas) (some role) roles

/-- `qsort` with `role_order_cmp`. -/
def sortRoles [LinearOrder ω] (roles : List (CachedRole ω)) : List (CachedRole ω) :=
  roles.insertionSort (fun a b => a.order ≤ b.order)

def ldifToSudoers [LinearOrder ω] (roles : List (CachedRole ω)) : List Userspec :=
  convertRoles env storeOptions [] none (sortRoles roles)

def sudoersParseLdif [LinearOrder ω] [Zero ω] (strtod : String → ω) (entries : List LdifEntry) : ParseTree :=
  let st := entries.foldl (finishEntry strtod) LdifState.empty
  { userspecs := ldifToSudoers env storeOptions st.roles, defaults := st.defaults, aliases := [],
    shost := none, lhost := none }

end NextBSD.Sudoers
