import Mathlib.Data.List.Basic

/-!
# The request

What the matchers read of `struct sudoers_context`: who asks, what for, and as whom.
Pointers that may be `NULL` are options.
-/

namespace NextBSD.Sudoers

structure Passwd where
  name : String
  uid : Nat
  gid : Nat
  deriving DecidableEq, Repr

structure Group where
  name : String
  gid : Nat
  deriving DecidableEq, Repr

/-- The fields of `struct stat` that name a file. -/
structure Stat where
  dev : Nat
  ino : Nat
  deriving DecidableEq, Repr

structure UserContext where
  pw : Passwd
  name : String
  gidList : List Nat
  path : Option String
  cmnd : Option String
  cmndArgs : Option String
  cmndBase : String
  cmndDir : Option String
  cmndList : Option String
  cmndStat : Option Stat
  deriving DecidableEq, Repr

/-- `struct sudoers_runas_context`, without what a matching rule writes into it. -/
structure RunasContext where
  pw : Passwd
  gr : Option Group
  chroot : Option String
  host : String
  shost : String
  argv : List String
  deriving DecidableEq, Repr

/-- `struct sudoers_context`.  The flags are those of `settings.flags`, and `modeCheck` is
`MODE_CHECK` of `mode`. -/
structure SudoersContext where
  user : UserContext
  runas : RunasContext
  runasUserSpecified : Bool
  runasGroupSpecified : Bool
  modeCheck : Bool
  deriving DecidableEq, Repr

end NextBSD.Sudoers

/-!
## The parsed sudoers policy

The structures of `parse.h`.  The lists that a struct heads are lists here, in file
order, and a `NULL` pointer is `none`.  File names, line numbers and comments serve
messages only and are left out.
-/

namespace NextBSD.Sudoers

inductive AliasType where
  | user
  | runas
  | host
  | cmnd
  deriving DecidableEq, Repr

structure CommandDigest where
  digestType : Nat
  digestStr : String
  deriving DecidableEq, Repr

/-- `struct sudo_command`.  `cmnd` is `NULL` for the command `ALL`. -/
structure SudoCommand where
  cmnd : Option String
  args : Option String
  digests : List CommandDigest
  deriving DecidableEq, Repr

/-- The `type` of a member with what its `name` points to: a string, or a command for
`COMMAND` and for an `ALL` that stands for every command. -/
inductive MemberType where
  | all (command : Option SudoCommand)
  | myself
  | netgroup (name : String)
  | usergroup (name : String)
  | ntwkaddr (name : String)
  | alias (name : String)
  | word (name : String)
  | command (c : SudoCommand)
  deriving DecidableEq, Repr

structure Member where
  type : MemberType
  negated : Bool
  deriving DecidableEq, Repr

structure Alias where
  name : String
  type : AliasType
  members : List Member
  deriving DecidableEq, Repr

/-- The value of a tag: `true`, `false`, `IMPLIED` or `UNSPEC`. -/
inductive Tag where
  | yes
  | no
  | implied
  | unspec
  deriving DecidableEq, Repr

structure Cmndtag where
  follow : Tag
  intercept : Tag
  logInput : Tag
  logOutput : Tag
  noexec : Tag
  nopasswd : Tag
  sendMail : Tag
  setenv : Tag
  deriving DecidableEq, Repr

def tagsInit : Cmndtag :=
  { follow := .unspec, intercept := .unspec, logInput := .unspec, logOutput := .unspec,
    noexec := .unspec, nopasswd := .unspec, sendMail := .unspec, setenv := .unspec }

/-- `struct cmndspec`.  `notbefore` and `notafter` are `none` where the source has
`UNSPEC`. -/
structure Cmndspec where
  runasuserlist : Option (List Member)
  runasgrouplist : Option (List Member)
  cmnd : Member
  tags : Cmndtag
  timeout : Int
  notbefore : Option Int
  notafter : Option Int
  runcwd : Option String
  runchroot : Option String
  role : Option String
  type : Option String
  apparmorProfile : Option String
  privs : Option String
  limitprivs : Option String
  deriving DecidableEq, Repr

inductive DefaultsType where
  | generic
  | user
  | runas
  | host
  | cmnd
  deriving DecidableEq, Repr

/-- `struct defaults`, with the members of its binding. -/
structure Defaults where
  var : String
  val : Option String
  binding : List Member
  type : DefaultsType
  op : Int
  deriving DecidableEq, Repr

structure Privilege where
  hostlist : List Member
  cmndlist : List Cmndspec
  defaults : List Defaults
  deriving DecidableEq, Repr

structure Userspec where
  users : List Member
  privileges : List Privilege
  deriving DecidableEq, Repr

/-- `struct sudoers_parse_tree`.  The red-black tree of the aliases holds at most one of
each name and type, and is looked up by that key. -/
structure ParseTree where
  userspecs : List Userspec
  defaults : List Defaults
  aliases : List Alias
  shost : Option String
  lhost : Option String
  deriving DecidableEq, Repr

abbrev AliasKey := AliasType × String

def Alias.key (a : Alias) : AliasKey := (a.type, a.name)

def ParseTree.findAlias (tree : ParseTree) (type : AliasType) (name : String) : Option Alias :=
  tree.aliases.find? (fun a => a.key = (type, name))

theorem ParseTree.findAlias_eq_some {tree : ParseTree} {type : AliasType} {name : String}
    {a : Alias} (h : tree.findAlias type name = some a) :
    a ∈ tree.aliases ∧ a.key = (type, name) := by
  refine ⟨List.mem_of_find?_eq_some h, ?_⟩
  simpa using List.find?_some h

end NextBSD.Sudoers
