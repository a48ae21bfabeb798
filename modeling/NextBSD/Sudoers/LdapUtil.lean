import NextBSD.Sudoers.Policy
import Mathlib.Data.List.DropRight

/-!
# Privileges from LDAP attributes

`ldap_util.c`: the attributes of a `sudoRole` become a privilege.  Memory does not run out, and
the messages about unknown or repeated options are left out.
-/

namespace NextBSD.Sudoers

/-- What the conversion asks the C library: a time of `sudoNotBefore` or `sudoNotAfter`, `none`
where `parse_gentime` returns -1, and whether `inet_pton` reads an address of either family. -/
structure LdapEnv where
  parseGentime : String → Option Int
  inetPton : String → Bool

def isblank (c : Char) : Bool := c == ' ' || c == '\t'

/-- The loop of `sudo_ldap_is_negated`; `skip` is its inner loop over blanks. -/
def dropNegation (ret skip : Bool) : List Char → Bool × List Char
  | [] => (ret, [])
  | c :: val =>
    if c = '!' then dropNegation (!ret) true val
    else if skip && isblank c then dropNegation ret true val
    else (ret, c :: val)

/-- Whether the text begins with an odd number of `!`, and what follows them. -/
def sudoLdapIsNegated (val : String) : Bool × String :=
  ((dropNegation false false val.toList).1, String.ofList (dropNegation false false val.toList).2)

def stripQuotes (val : List Char) : List Char :=
  if val.head? = some '"' ∧ val.getLast? = some '"' then val.tail.dropLast else val

/-- The operator (1 for `true`, 0 for `false`, or the character before the `=`), the name and
the value. -/
def sudoLdapParseOption (optstr : String) : Int × String × Option String :=
  let var := optstr.toList.takeWhile (· ≠ '=')
  match optstr.toList.dropWhile (· ≠ '=') with
  | _ :: val =>
    if var.isEmpty then
      (if (sudoLdapIsNegated optstr).1 then 0 else 1, (sudoLdapIsNegated optstr).2, none)
    else
      let val := some (String.ofList (stripQuotes (val.dropWhile isblank)))
      match var.getLast? with
      | some '+' => ('+'.toNat, String.ofList (var.dropLast.rdropWhile isblank), val)
      | some '-' => ('-'.toNat, String.ofList (var.dropLast.rdropWhile isblank), val)
      | _ => (1, String.ofList (var.rdropWhile isblank), val)
  | [] => (if (sudoLdapIsNegated optstr).1 then 0 else 1, (sudoLdapIsNegated optstr).2, none)

def nameType (name : String) : MemberType :=
  match name.toList with
  | [] => .myself
  | '+' :: _ => .netgroup name
  | '%' :: _ => .usergroup name
  | _ => if name = "ALL" then .all none else .word name

/-- A value of `sudoUser`, `sudoRunAsUser` or `sudoRunAsGroup`. -/
def nameToMember (val : String) : Member :=
  { type := nameType (sudoLdapIsNegated val).2, negated := (sudoLdapIsNegated val).1 }

def negatedLast (members : List Member) : List Member :=
  members.filter (fun m => !m.negated) ++ members.filter (fun m => m.negated)

def arrayToMemberList (a : List String) : List Member := negatedLast (a.map nameToMember)

section Env

variable (env : LdapEnv)

def isAddress (host : String) : Bool :=
  env.inetPton (String.ofList (host.toList.takeWhile (· ≠ '/')))

def hostType (host : String) : MemberType :=
  match host.toList with
  | '+' :: _ => .netgroup host
  | _ =>
    if host = "ALL" then .all none
    else if isAddress env host then .ntwkaddr host else .word host

def hostToMember (host : String) : Member :=
  { type := hostType env (sudoLdapIsNegated host).2, negated := (sudoLdapIsNegated host).1 }

end Env

/-- The number of the digest type that the text names, and the text behind the name. -/
def digestName : List Char → Option (Nat × List Char)
  | 's' :: 'h' :: 'a' :: '2' :: '2' :: '4' :: cp => some (0, cp)
  | 's' :: 'h' :: 'a' :: '2' :: '5' :: '6' :: cp => some (1, cp)
  | 's' :: 'h' :: 'a' :: '3' :: '8' :: '4' :: cp => some (2, cp)
  | 's' :: 'h' :: 'a' :: '5' :: '1' :: '2' :: cp => some (3, cp)
  | _ => none

def sudoLdapExtractDigest (cmnd : List Char) : Option (CommandDigest × List Char) :=
  match digestName cmnd with
  | none => none
  | some (digestType, cp) =>
    match cp.dropWhile isblank with
    | ':' :: cp =>
      let cp := cp.dropWhile isblank
      let ep := cp.dropWhile (fun c => !isblank c && c != ',')
      if ep.isEmpty then none
      else
        some (⟨digestType, String.ofList (cp.takeWhile (fun c => !isblank c && c != ','))⟩,
          ep.dropWhile isblank)
    | _ => none

/-- Each round takes a digest off the text, so its length bounds their number. -/
def extractDigests (digests : List CommandDigest) : Nat → List Char → List CommandDigest × List Char
  | 0, cp => (digests, cp)
  | n + 1, cp =>
    match sudoLdapExtractDigest cp with
    | none => (digests, cp)
    | some (digest, ',' :: cp) => extractDigests (digests ++ [digest]) n (cp.dropWhile isblank)
    | some (digest, cp) => (digests ++ [digest], cp)

def sudoLdapExtractDigests (cmnd : String) : List CommandDigest × List Char :=
  extractDigests [] cmnd.length cmnd.toList

/-! ## Options -/

def intMax : Int := 2147483647

def isspace (c : Char) : Bool := c ∈ [' ', '\t', '\n', '\x0b', '\x0c', '\r']

/-- `strtol(cp, &ep, 10)`: the number and the text behind it, `none` where there is none.  A
number that no `long` holds is returned as it is. -/
def strtol (cp : List Char) : Option (Int × List Char) :=
  let cp := cp.dropWhile isspace
  let neg := cp.head? = some '-'
  let cp := if neg ∨ cp.head? = some '+' then cp.tail else cp
  let digits := cp.takeWhile Char.isDigit
  if digits.isEmpty then none
  else
    let n : Int := digits.foldl (fun n c => n * 10 + (c.toNat - '0'.toNat : Nat)) 0
    some (if neg then -n else n, cp.dropWhile Char.isDigit)

def suffixSeconds : Char → Int
  | 'd' => 24 * 60 * 60
  | 'h' => 60 * 60
  | 'm' => 60
  | _ => 1

/-- The loop of `parse_timeout`, with the suffixes that may still come.  Each round reads a
digit, so the length of the text bounds their number. -/
def parseTimeoutFrom (timeout : Int) : Nat → List Char → List Char → Int
  | 0, _, _ => -1
  | n + 1, suffixes, cp =>
    match strtol cp with
    | none => -1
    | some (l, ep) =>
      if l < 0 ∨ l > intMax then -1
      else
        match ep with
        | [] => if l > intMax - timeout then -1 else timeout + l
        | c :: cp =>
          match suffixes.dropWhile (· ≠ c.toLower) with
          | [] => -1
          | suffix :: rest =>
            if l > intMax / suffixSeconds suffix then -1
            else
              let l := l * suffixSeconds suffix
              if l > intMax - timeout then -1
              else if cp.isEmpty then timeout + l
              else parseTimeoutFrom (timeout + l) n (suffix :: rest) cp

def parseTimeout (timestr : String) : Int :=
  parseTimeoutFrom 0 (timestr.length + 1) ['d', 'h', 'm', 's'] timestr.toList

def boolTag (b : Bool) : Tag := if b then .yes else .no

def sudoersDefaultsToTags (var : String) (op : Int) (tags : Cmndtag) : Option Cmndtag :=
  if op = 1 ∨ op = 0 then
    match var with
    | "authenticate" => some { tags with nopasswd := boolTag (op = 0) }
    | "sudoedit_follow" => some { tags with follow := boolTag (op = 1) }
    | "log_input" => some { tags with logInput := boolTag (op = 1) }
    | "log_output" => some { tags with logOutput := boolTag (op = 1) }
    | "noexec" => some { tags with noexec := boolTag (op = 1) }
    | "intercept" => some { tags with intercept := boolTag (op = 1) }
    | "setenv" => some { tags with setenv := boolTag (op = 1) }
    | "mail_all_cmnds" => some { tags with sendMail := boolTag (op = 1) }
    | "mail_always" => some { tags with sendMail := boolTag (op = 1) }
    | "mail_no_perms" => some { tags with sendMail := boolTag (op = 1) }
    | _ => none
  else none

/-- What the options leave in the command spec and in the defaults of the privilege. -/
structure OptionState where
  spec : Cmndspec
  defaults : List Defaults

/-- `append_default`, or the tag that the option stands for. -/
def keepOption (storeOptions : Bool) (op : Int) (var : String) (val : Option String)
    (st : OptionState) : OptionState :=
  if storeOptions then
    { st with
      defaults := st.defaults ++ [{ var := var, val := val, binding := [], type := .generic, op := op }] }
  else
    match sudoersDefaultsToTags var op st.spec.tags with
    | some tags => { st with spec := { st.spec with tags := tags } }
    | none => st

/-- One `sudoOption`.  The settings of a command spec have a value. -/
def addOption (storeOptions : Bool) (st : OptionState) (opt : String) : OptionState :=
  match sudoLdapParseOption opt with
  | (op, var, none) => keepOption storeOptions op var none st
  | (op, var, some val) =>
    match var with
    | "command_timeout" => { st with spec := { st.spec with timeout := parseTimeout val } }
    | "runchroot" => { st with spec := { st.spec with runchroot := some val } }
    | "runcwd" => { st with spec := { st.spec with runcwd := some val } }
    | "role" => { st with spec := { st.spec with role := some val } }
    | "type" => { st with spec := { st.spec with type := some val } }
    | "apparmor_profile" => { st with spec := { st.spec with apparmorProfile := some val } }
    | "privs" => { st with spec := { st.spec with privs := some val } }
    | "limitprivs" => { st with spec := { st.spec with limitprivs := some val } }
    | _ => keepOption storeOptions op var (some val) st

def newCmndspec : Cmndspec :=
  { runasuserlist := none, runasgrouplist := none, cmnd := ⟨.all none, false⟩, tags := tagsInit,
    timeout := -1, notbefore := none, notafter := none, runcwd := none, runchroot := none,
    role := none, type := none, apparmorProfile := none, privs := none, limitprivs := none }

def runasList (a : List String) : Option (List Member) :=
  if a.isEmpty then none else some (arrayToMemberList a)

def roleSettings (env : LdapEnv) (runasusers runasgroups opts : List String)
    (notbefore notafter : Option String) (storeOptions : Bool) : OptionState :=
  opts.foldl (addOption storeOptions)
    { spec :=
        { newCmndspec with
          runasuserlist := runasList runasusers
          runasgrouplist := runasList runasgroups
          notbefore := notbefore.bind env.parseGentime
          notafter := notafter.bind env.parseGentime }
      defaults := [] }

/-- The command behind its digests, and the implied `SETENV` of `ALL`. -/
def fillCommand (spec : Cmndspec) (cmnd : String) : Cmndspec :=
  let negated := (sudoLdapIsNegated cmnd).1
  let (digests, text) := sudoLdapExtractDigests (sudoLdapIsNegated cmnd).2
  if text = "ALL".toList then
    { spec with
      cmnd := ⟨.all (some ⟨none, none, digests⟩), negated⟩
      tags :=
        { spec.tags with
          setenv := if spec.tags.setenv = .unspec then .implied else spec.tags.setenv } }
  else
    let args :=
      match text.dropWhile (fun c => !isblank c) with
      | [] => none
      | _ :: args => some (String.ofList args)
    { spec with
      cmnd := ⟨.command ⟨some (String.ofList (text.takeWhile (fun c => !isblank c))), args, digests⟩,
        negated⟩ }

def inheritCmndspec (prev : Cmndspec) : Cmndspec :=
  { prev with
    tags :=
      { prev.tags with
        setenv := if prev.tags.setenv = .implied then .unspec else prev.tags.setenv } }

def roleCmndspecs (settings : Cmndspec) : List String → List Cmndspec
  | [] => []
  | cmnd :: cmnds =>
    fillCommand settings cmnd ::
      cmnds.map (fillCommand (inheritCmndspec (fillCommand settings cmnd)))

def sudoLdapRoleToPriv (env : LdapEnv) (hosts runasusers runasgroups cmnds opts : List String)
    (notbefore notafter : Option String) (storeOptions : Bool) : Privilege :=
  let settings := roleSettings env runasusers runasgroups opts notbefore notafter storeOptions
  let specs := roleCmndspecs settings.spec cmnds
  { hostlist :=
      if hosts.isEmpty then [⟨.all none, false⟩] else negatedLast (hosts.map (hostToMember env))
    cmndlist := specs.filter (fun s => !s.cmnd.negated) ++ specs.filter (fun s => s.cmnd.negated)
    defaults := settings.defaults }

end NextBSD.Sudoers
