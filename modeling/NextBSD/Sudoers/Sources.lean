import NextBSD.Sudoers.Lookup

/-!
# sudoers_lookup

The sources are asked one after the other.  Each answer that is specified replaces the one
before it, together with the rule and the tree it came from; `info` is shared and written by
every source.  This is the lookup of a command, for which `pwflag` is zero.
-/

namespace NextBSD.Sudoers

/-- `struct sudo_nss`, after its query. -/
structure Nss where
  /-- `query` returned -1. -/
  queryFails : Bool
  parseTree : ParseTree
  retIfFound : Bool
  retIfNotfound : Bool
  deriving DecidableEq, Repr

def sudoNssCanContinue (nss : Nss) (m : Verdict) : Bool :=
  -- [NOTFOUND=return]
  if nss.retIfNotfound && m == .unspec then false
  -- [SUCCESS=return]
  else if nss.retIfFound && m != .unspec then false
  else true

/-- What a command spec may set: fields of `ctx->runas` and `def_` variables. -/
structure Settings where
  runasRole : Option String
  runasType : Option String
  runasApparmorProfile : Option String
  runasPrivs : Option String
  runasLimitprivs : Option String
  role : Option String
  type : Option String
  apparmorProfile : Option String
  privs : Option String
  limitprivs : Option String
  commandTimeout : Int
  runcwd : Option String
  runchroot : Option String
  authenticate : Bool
  noexec : Bool
  intercept : Bool
  setenv : Bool
  logInput : Bool
  logStdin : Bool
  logTtyin : Bool
  logOutput : Bool
  logStdout : Bool
  logStderr : Bool
  logTtyout : Bool
  mailAllCmnds : Bool
  mailAlways : Bool
  mailNoPerms : Bool
  sudoeditFollow : Bool
  deriving DecidableEq, Repr

/-- The value of a tag as a C truth value; without one `cur` stays. -/
def Tag.apply (t : Tag) (cur : Bool) : Bool :=
  match t with
  | .yes => true
  | .implied => true
  | .no => false
  | .unspec => cur

/-- `SELinux` role and type: the request, then the rule, then the default, which is used up. -/
def applyRoleAndType (cs : Cmndspec) (s : Settings) : Settings :=
  let s := match s.runasRole with
    | some _ => s
    | none =>
      match cs.role with
      | some role => { s with runasRole := some role }
      | none => { s with runasRole := s.role, role := none }
  match s.runasType with
  | some _ => s
  | none =>
    match cs.type with
    | some type => { s with runasType := some type }
    | none => { s with runasType := s.type, type := none }

/-- AppArmor profile and Solaris privileges: the rule, then the default, which is used up. -/
def applyPrivileges (cs : Cmndspec) (s : Settings) : Settings :=
  let s := match cs.apparmorProfile with
    | some profile => { s with runasApparmorProfile := some profile }
    | none => { s with runasApparmorProfile := s.apparmorProfile, apparmorProfile := none }
  let s := match cs.privs with
    | some privs => { s with runasPrivs := some privs }
    | none => { s with runasPrivs := s.privs, privs := none }
  match cs.limitprivs with
  | some limitprivs => { s with runasLimitprivs := some limitprivs }
  | none => { s with runasLimitprivs := s.limitprivs, limitprivs := none }

def applyTags (tags : Cmndtag) (s : Settings) : Settings :=
  { s with
    authenticate := match tags.nopasswd with
      | .unspec => s.authenticate
      | t => !t.apply false
    noexec := tags.noexec.apply s.noexec
    intercept := tags.intercept.apply s.intercept
    setenv := tags.setenv.apply s.setenv
    -- cb_log_input and cb_log_output
    logInput := tags.logInput.apply s.logInput
    logStdin := tags.logInput.apply s.logStdin
    logTtyin := tags.logInput.apply s.logTtyin
    logOutput := tags.logOutput.apply s.logOutput
    logStdout := tags.logOutput.apply s.logStdout
    logStderr := tags.logOutput.apply s.logStderr
    logTtyout := tags.logOutput.apply s.logTtyout
    mailAllCmnds := tags.sendMail.apply s.mailAllCmnds
    mailAlways := if tags.sendMail = .no then false else s.mailAlways
    mailNoPerms := if tags.sendMail = .no then false else s.mailNoPerms
    sudoeditFollow := tags.follow.apply s.sudoeditFollow }

/-- `apply_cmndspec`, which fails only for want of memory. -/
def applyCmndspec (cs : Cmndspec) (s : Settings) : Settings :=
  let s := applyPrivileges cs (applyRoleAndType cs s)
  applyTags cs.tags
    { s with
      commandTimeout := if cs.timeout > 0 then cs.timeout else s.commandTimeout
      runcwd := cs.runcwd.or s.runcwd
      runchroot := cs.runchroot.or s.runchroot }

/-! ## The loop -/

/-- The variables of `sudoers_lookup`; `found` is `match`, and `error` is `VALIDATE_ERROR` of
`validated`. -/
structure LookupState where
  check : CheckState
  error : Bool
  found : Verdict
  parseTree : Option ParseTree
  cs : Option Cmndspec
  defs : Option (List Defaults)
  deriving DecidableEq, Repr

variable (env : MatchEnv) (cenv : CommandEnv)

def lookupSource (now : Int) (nss : Nss) (s : LookupState) : Verdict × LookupState :=
  let r := sudoersLookupCheck env cenv nss.parseTree now s.check
  match r.1 with
  | none => (.unspec, { s with check := r.2 })
  | some d =>
    (d.verdict,
      { s with check := r.2, found := d.verdict, parseTree := some nss.parseTree,
               cs := some d.cs, defs := some d.defs })

def lookupSources (now : Int) : List Nss → LookupState → LookupState
  | [], s => s
  | nss :: rest, s =>
    if nss.queryFails then { s with error := true }
    else
      let r := lookupSource env cenv now nss s
      if sudoNssCanContinue nss r.1 then lookupSources now rest r.2 else r.2

def usedInfo (info : CmndInfo) : Option CmndInfo := info.cmndPath.map (fun _ => info)

/-- The command, its `stat` and its status are those of `info`. -/
def updateCmnd (info : CmndInfo) (ctx : SudoersContext) (status : CmndStatus) :
    SudoersContext × CmndStatus :=
  match usedInfo info with
  | none => (ctx, status)
  | some info =>
    ({ ctx with user := { ctx.user with
        cmnd := info.cmndPath
        cmndStat := ctx.user.cmndStat.map (fun _ => info.cmndStat.getD { dev := 0, ino := 0 }) } },
      info.status)

/-- What `sudoers_lookup` needs besides the sources: `update_defaults` for the defaults of a
privilege, and whether the privileges can be changed and changed back. -/
structure LookupEnv where
  updateDefaults : SudoersContext → ParseTree → List Defaults → Settings → Settings
  setPerms : Bool
  restorePerms : Bool

/-- The bits of `validated`, and what the lookup changed. -/
structure LookupResult where
  error : Bool
  success : Bool
  failure : Bool
  noUser : Bool
  noHost : Bool
  ctx : SudoersContext
  cmndStatus : CmndStatus
  settings : Settings
  deriving DecidableEq, Repr

def finishLookup (lenv : LookupEnv) (status : CmndStatus) (settings : Settings)
    (s : LookupState) : LookupResult :=
  let error := s.error || !lenv.restorePerms
  if s.found.specified then
    let r := updateCmnd s.check.info s.check.ctx status
    let settings := match s.parseTree, s.defs with
      | some tree, some defs => lenv.updateDefaults r.1 tree defs settings
      | _, _ => settings
    let settings := match s.cs with
      | some cs => applyCmndspec cs settings
      | none => settings
    { error := error, success := s.found = .allow, failure := s.found = .deny,
      noUser := s.check.noUser, noHost := s.check.noHost,
      ctx := r.1, cmndStatus := r.2, settings := settings }
  else
    { error := error, success := false, failure := false,
      noUser := s.check.noUser, noHost := s.check.noHost,
      ctx := s.check.ctx, cmndStatus := status, settings := settings }

/-- The state before the loop.  `info` has not been written yet. -/
def lookupStart (ctx : SudoersContext) (info : CmndInfo) : LookupState where
  check := { ctx := ctx, info := info, noUser := true, noHost := true }
  error := false
  found := .unspec
  parseTree := none
  cs := none
  defs := none

/-- `sudoers_lookup` of a command. -/
def sudoersLookup (lenv : LookupEnv) (now : Int) (snl : List Nss) (ctx : SudoersContext)
    (info : CmndInfo) (status : CmndStatus) (settings : Settings) : LookupResult :=
  if lenv.setPerms then
    finishLookup lenv status settings (lookupSources env cenv now snl (lookupStart ctx info))
  else
    { error := false, success := false, failure := false, noUser := true, noHost := true,
      ctx := ctx, cmndStatus := status, settings := settings }

/-- A source that was consulted, with its decision and the state its lookup left. -/
structure Consulted where
  nss : Nss
  decision : Option Decision
  check : CheckState
  deriving DecidableEq, Repr

def consulted (now : Int) : List Nss → CheckState → List Consulted
  | [], _ => []
  | nss :: rest, s =>
    if nss.queryFails then []
    else
      let r := sudoersLookupCheck env cenv nss.parseTree now s
      { nss := nss, decision := r.1, check := r.2 } ::
        if sudoNssCanContinue nss (Decision.result r.1) then consulted now rest r.2 else []

def Consulted.answer (e : Consulted) : Verdict := Decision.result e.decision

def Consulted.continues (e : Consulted) : Bool := sudoNssCanContinue e.nss e.answer

def deciding (trace : List Consulted) : Option Consulted :=
  trace.reverse.find? (fun e => e.answer.specified)

/-- What a consulted source does to the variables of `sudoers_lookup`. -/
def record (s : LookupState) (e : Consulted) : LookupState :=
  match e.decision with
  | none => { s with check := e.check }
  | some d =>
    { s with check := e.check, found := d.verdict, parseTree := some e.nss.parseTree,
             cs := some d.cs, defs := some d.defs }

variable {env cenv} {now : Int}

theorem lookupSources_eq (snl : List Nss) (s : LookupState) :
    ∃ error, lookupSources env cenv now snl s =
      { (consulted env cenv now snl s.check).foldl record s with error := error } := by
  induction snl generalizing s with
  | nil => exact ⟨s.error, rfl⟩
  | cons nss rest ih =>
    unfold lookupSources consulted
    by_cases hquery : nss.queryFails = true
    · rw [if_pos hquery, if_pos hquery]
      exact ⟨true, rfl⟩
    · rw [if_neg hquery, if_neg hquery]
      have hrecord : lookupSource env cenv now nss s =
          (Decision.result (sudoersLookupCheck env cenv nss.parseTree now s.check).1,
            record s { nss := nss
                       decision := (sudoersLookupCheck env cenv nss.parseTree now s.check).1
                       check := (sudoersLookupCheck env cenv nss.parseTree now s.check).2 }) := by
        unfold lookupSource record
        cases sudoersLookupCheck env cenv nss.parseTree now s.check with
        | mk decision check => cases decision <;> rfl
      have hcheck (e : Consulted) : (record s e).check = e.check := by
        unfold record
        cases e.decision <;> rfl
      simp only [hrecord, List.foldl_cons]
      by_cases hgo : sudoNssCanContinue nss
          (Decision.result (sudoersLookupCheck env cenv nss.parseTree now s.check).1) = true
      · simp only [if_pos hgo]
        have hrest := ih (record s
          { nss := nss
            decision := (sudoersLookupCheck env cenv nss.parseTree now s.check).1
            check := (sudoersLookupCheck env cenv nss.parseTree now s.check).2 })
        rw [hcheck] at hrest
        exact hrest
      · simp only [if_neg hgo]
        exact ⟨_, rfl⟩

/-- Without a decision `info` is zero, and a decision is specified. -/
def Settled (r : Option Decision × CheckState) : Prop :=
  match r.1 with
  | none => r.2.info = zeroInfo
  | some d => d.verdict.specified = true

theorem lookupCmndspecs_settled (tree : ParseTree) (priv : Privilege) (list : List Cmndspec) :
    ∀ s : CheckState, s.info = zeroInfo →
      Settled (lookupCmndspecs env cenv tree now priv list s) := by
  induction list with
  | nil => exact fun s hs => hs
  | cons cs rest ih =>
    intro s _
    unfold lookupCmndspecs
    by_cases hv : (lookupCmndspec env cenv tree now cs s).1.specified = true
    · simp only [if_pos hv]
      exact hv
    · simp only [if_neg hv]
      exact ih _ rfl

theorem lookupPrivileges_settled (tree : ParseTree) (list : List Privilege) :
    ∀ s : CheckState, s.info = zeroInfo →
      Settled (lookupPrivileges env cenv tree now list s) := by
  induction list with
  | nil => exact fun s hs => hs
  | cons priv rest ih =>
    intro s hs
    unfold lookupPrivileges
    by_cases hhost : hostMatch env s.ctx tree priv = .allow
    · rw [if_pos hhost]
      have hfirst : Settled (lookupCmndspecs env cenv tree now priv priv.cmndlist.reverse
          { s with noHost := false }) := lookupCmndspecs_settled tree priv _ _ hs
      cases hrun : lookupCmndspecs env cenv tree now priv priv.cmndlist.reverse
          { s with noHost := false } with
      | mk d s' =>
        rw [hrun] at hfirst
        cases d with
        | none => exact ih s' hfirst
        | some d => exact hfirst
    · rw [if_neg hhost]
      exact ih s hs

theorem lookupUserspecs_settled (tree : ParseTree) (list : List Userspec) :
    ∀ s : CheckState, s.info = zeroInfo →
      Settled (lookupUserspecs env cenv tree now list s) := by
  induction list with
  | nil => exact fun s hs => hs
  | cons us rest ih =>
    intro s hs
    unfold lookupUserspecs
    by_cases huser : userMatch env s.ctx tree us = .allow
    · rw [if_pos huser]
      have hfirst : Settled (lookupPrivileges env cenv tree now us.privileges.reverse
          { s with noUser := false }) := lookupPrivileges_settled tree _ _ hs
      cases hrun : lookupPrivileges env cenv tree now us.privileges.reverse
          { s with noUser := false } with
      | mk d s' =>
        rw [hrun] at hfirst
        cases d with
        | none => exact ih s' hfirst
        | some d => exact hfirst
    · rw [if_neg huser]
      exact ih s hs

theorem consulted_settled (snl : List Nss) (s : CheckState) :
    ∀ e ∈ consulted env cenv now snl s, Settled (e.decision, e.check) := by
  induction snl generalizing s with
  | nil =>
    intro e he
    cases he
  | cons nss rest ih =>
    intro e he
    unfold consulted at he
    by_cases hquery : nss.queryFails = true
    · rw [if_pos hquery] at he
      cases he
    · rw [if_neg hquery] at he
      obtain rfl | he := List.mem_cons.mp he
      · exact lookupUserspecs_settled nss.parseTree _ _ rfl
      · by_cases hgo : sudoNssCanContinue nss
            (Decision.result (sudoersLookupCheck env cenv nss.parseTree now s).1) = true
        · rw [if_pos hgo] at he
          exact ih _ e he
        · rw [if_neg hgo] at he
          cases he

theorem answer_unspec {e : Consulted} (h : Settled (e.decision, e.check)) :
    e.answer = .unspec ↔ e.decision = none := by
  obtain ⟨nss, decision, check⟩ := e
  cases decision with
  | none => exact ⟨fun _ => rfl, fun _ => rfl⟩
  | some d =>
    constructor
    · intro hv
      have hd : d.verdict.specified = true := h
      rw [show d.verdict = .unspec from hv] at hd
      cases hd
    · intro hd
      cases hd

/-! ## One source decides -/

/-- The sources are consulted in order until the first stop condition holds: a query that fails,
or an answer that ends the search. -/
structure InOrder (snl : List Nss) (trace : List Consulted) : Prop where
  isPrefix : ∃ rest, snl = trace.map Consulted.nss ++ rest ∧
    ∀ nss, rest.head? = some nss → nss.queryFails = true ∨
      ∃ e, trace.getLast? = some e ∧ e.continues = false
  queried : ∀ e ∈ trace, e.nss.queryFails = false
  goesOn : ∀ e ∈ trace.dropLast, e.continues = true

theorem consulted_inOrder (snl : List Nss) (s : CheckState) :
    InOrder snl (consulted env cenv now snl s) := by
  induction snl generalizing s with
  | nil =>
    refine ⟨⟨[], rfl, ?_⟩, ?_, ?_⟩
    · intro nss h
      cases h
    · intro e he
      cases he
    · intro e he
      cases he
  | cons nss rest ih =>
    unfold consulted
    by_cases hquery : nss.queryFails = true
    · rw [if_pos hquery]
      refine ⟨⟨nss :: rest, rfl, ?_⟩, ?_, ?_⟩
      · intro n hn
        obtain rfl : nss = n := by simpa using hn
        exact Or.inl hquery
      · intro e he
        cases he
      · intro e he
        cases he
    · rw [if_neg hquery]
      have hq : nss.queryFails = false := by simpa using hquery
      by_cases hgo : sudoNssCanContinue nss
          (Decision.result (sudoersLookupCheck env cenv nss.parseTree now s).1) = true
      · obtain ⟨⟨tail, hsplit, hstop⟩, hqueried, hgoes⟩ :=
          ih (sudoersLookupCheck env cenv nss.parseTree now s).2
        simp only [if_pos hgo]
        generalize consulted env cenv now rest
          (sudoersLookupCheck env cenv nss.parseTree now s).2 = trace at *
        refine ⟨⟨tail, congrArg (nss :: ·) hsplit, ?_⟩, ?_, ?_⟩
        · intro n hn
          obtain hfails | ⟨e, hlast, he⟩ := hstop n hn
          · exact Or.inl hfails
          · right
            refine ⟨e, ?_, he⟩
            rw [List.getLast?_cons, hlast]
            rfl
        · intro e he
          obtain rfl | he := List.mem_cons.mp he
          · exact hq
          · exact hqueried e he
        · intro e he
          cases trace with
          | nil => cases he
          | cons b trace =>
            obtain rfl | he := List.mem_cons.mp he
            · exact hgo
            · exact hgoes e he
      · simp only [if_neg hgo]
        refine ⟨⟨rest, rfl, ?_⟩, ?_, ?_⟩
        · intro n _
          right
          exact ⟨_, rfl, Bool.not_eq_true _ ▸ hgo⟩
        · intro e he
          obtain rfl := List.mem_singleton.mp he
          exact hq
        · intro e he
          cases he

/-- What the lookup ends with is what the source `e` said. -/
structure TakenFrom (final : LookupState) (e : Consulted) : Prop where
  found : final.found = e.answer
  cs : final.cs = e.decision.map Decision.cs
  defs : final.defs = e.decision.map Decision.defs
  parseTree : final.parseTree = some e.nss.parseTree
  info : usedInfo final.check.info = usedInfo e.check.info

structure Undecided (final : LookupState) : Prop where
  found : final.found = .unspec
  cs : final.cs = none
  defs : final.defs = none
  parseTree : final.parseTree = none

def Outputs (source : Option Consulted) (final : LookupState) : Prop :=
  match source with
  | none => Undecided final
  | some e => TakenFrom final e

/-- The sources are consulted in order, and all that the lookup ends with comes from the last
one with a specified answer. -/
def OneSource (env : MatchEnv) (cenv : CommandEnv) (now : Int) (snl : List Nss)
    (s : LookupState) : Prop :=
  InOrder snl (consulted env cenv now snl s.check) ∧
    Outputs (deciding (consulted env cenv now snl s.check)) (lookupSources env cenv now snl s)

theorem foldl_record_undecided {post : List Consulted} (hpost : ∀ p ∈ post, p.decision = none)
    (s : LookupState) :
    ∃ check, post.foldl record s = { s with check := check } ∧
      (post = [] ∧ check = s.check ∨ ∃ p ∈ post, check = p.check) := by
  induction post generalizing s with
  | nil => exact ⟨s.check, rfl, Or.inl ⟨rfl, rfl⟩⟩
  | cons p post ih =>
    have hp : record s p = { s with check := p.check } := by
      unfold record
      rw [hpost p List.mem_cons_self]
    obtain ⟨check, hfold, hcheck⟩ :=
      ih (fun q hq => hpost q (List.mem_cons_of_mem p hq)) { s with check := p.check }
    refine ⟨check, ?_, ?_⟩
    · rw [List.foldl_cons, hp, hfold]
    · right
      obtain ⟨-, hcheck⟩ | ⟨q, hq, hcheck⟩ := hcheck
      · exact ⟨p, List.mem_cons_self, hcheck⟩
      · exact ⟨q, List.mem_cons_of_mem p hq, hcheck⟩

theorem foldl_record_deciding {pre post : List Consulted} {e : Consulted} {d : Decision}
    (hd : e.decision = some d) (hpost : ∀ p ∈ post, p.decision = none) (s : LookupState) :
    ∃ check error, (pre ++ e :: post).foldl record s =
        { check := check, error := error, found := d.verdict,
          parseTree := some e.nss.parseTree, cs := some d.cs, defs := some d.defs } ∧
      (post = [] ∧ check = e.check ∨ ∃ p ∈ post, check = p.check) := by
  rw [List.foldl_append, List.foldl_cons]
  obtain ⟨check, hfold, hcheck⟩ := foldl_record_undecided hpost (record (pre.foldl record s) e)
  have he : record (pre.foldl record s) e =
      { check := e.check, error := (pre.foldl record s).error, found := d.verdict,
        parseTree := some e.nss.parseTree, cs := some d.cs, defs := some d.defs } := by
    unfold record
    rw [hd]
  rw [he] at hcheck
  refine ⟨check, (pre.foldl record s).error, ?_, hcheck⟩
  rw [hfold, he]

theorem usedInfo_eq_none {info : CmndInfo} : usedInfo info = none ↔ info.cmndPath = none :=
  Option.map_eq_none_iff

theorem outputs_iff {pre post : List Consulted} {e : Consulted}
    (hsettled : ∀ p ∈ pre ++ e :: post, Settled (p.decision, p.check))
    (he : e.answer ≠ .unspec) (hpost : ∀ p ∈ post, p.answer = .unspec)
    (s : LookupState) (error : Bool) :
    Outputs (deciding (pre ++ e :: post))
        { (pre ++ e :: post).foldl record s with error := error } ↔
      post = [] ∨ e.check.info.cmndPath = none := by
  have hfind : deciding (pre ++ e :: post) = some e :=
    Verdict.find?_reverse_eq_some.mpr ⟨he, pre, post, rfl, hpost⟩
  have hnone : ∀ p ∈ post, p.decision = none := fun p hp =>
    (answer_unspec (hsettled p (by simp [hp]))).mp (hpost p hp)
  obtain ⟨d, hd⟩ : ∃ d, e.decision = some d := by
    rw [← Option.ne_none_iff_exists']
    exact fun h => he ((answer_unspec (hsettled e (by simp))).mpr h)
  have hreset : ∀ p ∈ post, usedInfo p.check.info = none := by
    intro p hp
    have hp' : Settled (p.decision, p.check) := hsettled p (by simp [hp])
    rw [hnone p hp] at hp'
    rw [usedInfo_eq_none, show p.check.info = zeroInfo from hp']
    rfl
  obtain ⟨check, error', hfold, hcheck⟩ := foldl_record_deciding hd hnone s
  rw [hfind, hfold]
  constructor
  · intro htaken
    obtain ⟨hnil, -⟩ | ⟨p, hp, hp'⟩ := hcheck
    · exact Or.inl hnil
    · right
      have hinfo : usedInfo check.info = usedInfo e.check.info := htaken.info
      rw [hp', hreset p hp] at hinfo
      exact usedInfo_eq_none.mp hinfo.symm
  · intro h
    refine ⟨?_, ?_, ?_, rfl, ?_⟩
    · show d.verdict = Decision.result e.decision
      rw [hd]
      rfl
    · show some d.cs = e.decision.map Decision.cs
      rw [hd]
      rfl
    · show some d.defs = e.decision.map Decision.defs
      rw [hd]
      rfl
    · show usedInfo check.info = usedInfo e.check.info
      obtain ⟨-, hcheck⟩ | ⟨p, hp, hcheck⟩ := hcheck
      · rw [hcheck]
      · rw [hcheck, hreset p hp]
        obtain hnil | hpath := h
        · rw [hnil] at hp
          cases hp
        · exact (usedInfo_eq_none.mpr hpath).symm

def jailSource : Nss where
  queryFails := false
  parseTree :=
    { lsTree none none with
      userspecs := [{ users := [{ type := .word "ann", negated := false }],
                      privileges :=
                        [{ hostlist := [{ type := .all none, negated := false }],
                           cmndlist := [{ lsCmndspec none none with
                             cmnd := { type := .all (some { cmnd := none, args := none,
                                                            digests := [] }),
                                       negated := false },
                             runchroot := some "/jail" }],
                           defaults := [] }] }] }
  retIfFound := false
  retIfNotfound := false

def emptySource : Nss where
  queryFails := false
  parseTree := { lsTree none none with userspecs := [] }
  retIfFound := false
  retIfNotfound := false

/-- A request without what a rule with a root of its own can leave changed. -/
def SudoersContext.base (ctx : SudoersContext) : SudoersContext :=
  { ctx with user := { ctx.user with cmndDir := none, cmndList := none, cmndStat := none } }

def SudoersContext.asSelf (ctx : SudoersContext) : SudoersContext :=
  { ctx with runas := { ctx.runas with pw := ctx.user.pw } }

/-- What the sources before can have made of a request. -/
def Later (ctx ctx' : SudoersContext) : Prop := ctx'.base = ctx.base ∨ ctx'.base = ctx.asSelf.base

section
variable (env : MatchEnv) (cenv : CommandEnv)

/-- The decision of a rule whose lists and date admit the request. -/
def ByRule (tree : ParseTree) (now : Int) (ctx : SudoersContext) (d : Decision) : Prop :=
  ∃ x ∈ specs tree, Tested env ctx tree now x ∧ d.cs = x.cs ∧ d.defs = x.priv.defaults ∧
    d.verdict ≠ .unspec ∧
    ∃ ctx' : SudoersContext, ctx'.base = ctx.base ∧ cmndMatch cenv ctx' tree x.cs = d.verdict

/-- No decision and no new settings, or the decision and the settings of a rule. -/
def Warranted (lenv : LookupEnv) (now : Int) (snl : List Nss) (ctx : SudoersContext)
    (settings : Settings) (r : LookupResult) : Prop :=
  r.success = false ∧ r.failure = false ∧ r.settings = settings ∨
    ∃ nss ∈ snl, nss.queryFails = false ∧ ∃ ctx' d, Later ctx ctx' ∧
      ByRule env cenv nss.parseTree now ctx' d ∧
      (r.success = true ↔ d.verdict = .allow) ∧ (r.failure = true ↔ d.verdict = .deny) ∧
      r.settings = applyCmndspec d.cs (lenv.updateDefaults r.ctx nss.parseTree d.defs settings)

structure Walked (tree : ParseTree) (now : Int) (ctx : SudoersContext)
    (r : Option Decision × CheckState) : Prop where
  decided : ∀ d, r.1 = some d → ByRule env cenv tree now ctx d ∧ Later ctx r.2.ctx
  undecided : r.1 = none → r.2.ctx.base = ctx.base

end

section
variable {env : MatchEnv} {cenv : CommandEnv} {now : Int} {tree : ParseTree}
  {ctx ctx' : SudoersContext} {s : CheckState}

theorem Later.cmnd (h : Later ctx ctx') : ctx'.user.cmnd = ctx.user.cmnd := by
  rcases h with h | h <;> exact (congrArg (fun c : SudoersContext => c.user.cmnd) h :)

theorem commandMatches_base (root : Option String) (c : SudoCommand)
    {s : SudoersContext × Option CmndInfo} (hcmnd : s.1.user.cmnd ≠ none) :
    (commandMatches cenv root c s).2.1.base = s.1.base := by
  by_cases hplain : s.1.runas.chroot ≠ none ∨ root = none
  · rw [commandMatches_plain hplain]
  · rw [not_or, not_not] at hplain
    obtain ⟨ruleRoot, rfl⟩ := Option.ne_none_iff_exists'.mp hplain.2
    obtain ⟨cmnd, hsome⟩ := Option.ne_none_iff_exists'.mp hcmnd
    rw [commandMatches_ownRoot hplain.1, commandMatchesOwnRoot, hsome]
    dsimp only
    split <;> simp [SudoersContext.base, setCmndPath, hsome]

variable (hcmnd : ctx.user.cmnd ≠ none)
include hcmnd

theorem memberMatches_base {root : Option String} {fuel : Nat} {m : Member}
    {e e' : EvalState (SudoersContext × Option CmndInfo)} {v : Verdict}
    (he : e.st.1.base = ctx.base)
    (h : memberMatches (cmndRules (commandMatches cenv root)) tree fuel m e = some (v, e')) :
    e'.st.1.base = ctx.base := by
  -- The same walk, over requests that have the base.
  let rules : MemberRules { s : SudoersContext × Option CmndInfo // s.1.base = ctx.base } :=
    cmndRules fun c s => ((commandMatches cenv root c s).1, ⟨(commandMatches cenv root c s).2,
      (commandMatches_base root c (by rwa [Later.cmnd (.inl s.2)])).trans s.2⟩)
  have hproject := @memberMatches_project _ _ Subtype.val rules (cmndRules (commandMatches cenv root))
    ⟨rfl, by rintro ((_ | _) | _) <;> intros <;> rfl, fun _ _ _ => rfl, fun _ _ => rfl, rfl⟩ tree
    fuel m { used := e.used, st := ⟨e.st, he⟩ }
  rw [h] at hproject
  obtain ⟨r, -, hr⟩ := Option.map_eq_some_iff.mp hproject
  cases hr
  exact r.2.st.2

variable (hs : s.ctx.base = ctx.base)
include hs

theorem lookupCmndspec_walked {cs : Cmndspec} :
    (lookupCmndspec env cenv tree now cs s).2.2.ctx.base = ctx.base ∧
      ((lookupCmndspec env cenv tree now cs s).1 ≠ .unspec → dateMatch now cs ≠ .deny ∧
        (runaslistMatches env ctx tree cs.runasuserlist cs.runasgrouplist).1 = .allow ∧
        cmndMatch cenv s.ctx tree cs = (lookupCmndspec env cenv tree now cs s).1) := by
  have hrunas : runaslistMatches env s.ctx tree cs.runasuserlist cs.runasgrouplist =
      runaslistMatches env ctx tree cs.runasuserlist cs.runasgrouplist :=
    (congrArg (fun c => runaslistMatches env c tree cs.runasuserlist cs.runasgrouplist) hs :)
  unfold lookupCmndspec
  dsimp only
  rw [hrunas]
  split_ifs with hdate hallow
  · exact ⟨hs, fun h => absurd rfl h⟩
  · obtain ⟨⟨v, t⟩, hrun⟩ := memberMatches_isSome'
      (cmndRules (commandMatches cenv cs.runchroot)) tree cs.cmnd (s.ctx, some s.info)
    have hproj := memberMatches_project (@cmndRules_projects cenv cs.runchroot) tree
      (tree.aliases.length + 1) cs.cmnd { used := [], st := (s.ctx, some s.info) }
    rw [hrun] at hproj
    have hwalk : runWalk (cmndMatches (commandMatches cenv cs.runchroot) tree cs.cmnd)
        (s.ctx, some s.info) = (v, t.st) := by
      rw [runWalk, cmndMatches, hrun]
    rw [hwalk]
    refine ⟨memberMatches_base hcmnd hs hrun, fun _ => ⟨hdate, hallow, ?_⟩⟩
    rw [cmndMatch, cmndRun, runWalk, cmndMatches, ← hproj]
    rfl
  · exact ⟨hs, fun h => absurd rfl h⟩

theorem lookupCmndspecs_walked {us : Userspec} {priv : Privilege} (hus : us ∈ tree.userspecs)
    (hpriv : priv ∈ us.privileges) (huser : userMatch env ctx tree us = .allow)
    (hhost : hostMatch env ctx tree priv = .allow) {list : List Cmndspec}
    (hlist : list ⊆ priv.cmndlist) :
    Walked env cenv tree now ctx (lookupCmndspecs env cenv tree now priv list s) := by
  induction list generalizing s with
  | nil => exact ⟨fun d h => (by cases h), fun _ => hs⟩
  | cons cs list ih =>
    obtain ⟨hbase, hrule⟩ := @lookupCmndspec_walked env cenv now tree ctx s hcmnd hs cs
    unfold lookupCmndspecs
    dsimp only
    split_ifs with hverdict
    · have hspecified := Verdict.specified_iff.mp hverdict
      obtain ⟨hdate, hrunas, hmatch⟩ := hrule hspecified
      refine ⟨fun d h => ?_, fun h => (by cases h)⟩
      cases h
      refine ⟨⟨_, mem_specs hus hpriv (hlist List.mem_cons_self),
        ⟨⟨huser, hhost, hrunas⟩, hdate⟩, rfl, rfl, hspecified, s.ctx, hs, hmatch⟩, ?_⟩
      dsimp only
      unfold runAsSelf
      split
      · exact Or.inr (congrArg SudoersContext.asSelf hbase)
      · exact Or.inl hbase
    · exact ih hbase fun c hc => hlist (List.mem_cons_of_mem cs hc)

theorem lookupPrivileges_walked {us : Userspec} (hus : us ∈ tree.userspecs)
    (huser : userMatch env ctx tree us = .allow) {list : List Privilege}
    (hlist : list ⊆ us.privileges) :
    Walked env cenv tree now ctx (lookupPrivileges env cenv tree now list s) := by
  induction list generalizing s with
  | nil => exact ⟨fun d h => (by cases h), fun _ => hs⟩
  | cons priv list ih =>
    have hrest := fun s hs => @ih s hs fun p hp => hlist (List.mem_cons_of_mem priv hp)
    have hhost : hostMatch env s.ctx tree priv = hostMatch env ctx tree priv :=
      (congrArg (fun c => hostMatch env c tree priv) hs :)
    rw [lookupPrivileges, hhost]
    split_ifs with hallow
    · have hwalk := @lookupCmndspecs_walked env cenv now tree ctx { s with noHost := false } hcmnd hs
        us priv hus (hlist List.mem_cons_self) huser hallow _ fun _ => List.mem_reverse.mp
      split
      · next heq => rwa [heq] at hwalk
      · next heq =>
        rw [heq] at hwalk
        exact hrest _ (hwalk.undecided rfl)
    · exact hrest s hs

theorem lookupUserspecs_walked {list : List Userspec} (hlist : list ⊆ tree.userspecs) :
    Walked env cenv tree now ctx (lookupUserspecs env cenv tree now list s) := by
  induction list generalizing s with
  | nil => exact ⟨fun d h => (by cases h), fun _ => hs⟩
  | cons us list ih =>
    have hrest := fun s hs => @ih s hs fun u hu => hlist (List.mem_cons_of_mem us hu)
    have huser : userMatch env s.ctx tree us = userMatch env ctx tree us :=
      (congrArg (fun c => userMatch env c tree us) hs :)
    rw [lookupUserspecs, huser]
    split_ifs with hallow
    · have hwalk := @lookupPrivileges_walked env cenv now tree ctx { s with noUser := false } hcmnd hs
        us (hlist List.mem_cons_self) hallow _ fun _ => List.mem_reverse.mp
      split
      · next heq => rwa [heq] at hwalk
      · next heq =>
        rw [heq] at hwalk
        exact hrest _ (hwalk.undecided rfl)
    · exact hrest s hs

end

section
variable {env : MatchEnv} {cenv : CommandEnv} {now : Int} {ctx : SudoersContext} {snl : List Nss}

theorem later_trans {ctx' ctx'' : SudoersContext} (h : Later ctx ctx') (h' : Later ctx' ctx'') :
    Later ctx ctx'' := by
  rcases h' with h' | h'
  · rwa [Later, h']
  · rcases h with h | h <;> exact Or.inr (h'.trans (congrArg SudoersContext.asSelf h))

def Decided (env : MatchEnv) (cenv : CommandEnv) (now : Int) (snl : List Nss)
    (ctx : SudoersContext) (s : LookupState) : Prop :=
  s.found = .unspec ∨ ∃ nss ∈ snl, nss.queryFails = false ∧ ∃ ctx' d, Later ctx ctx' ∧
    ByRule env cenv nss.parseTree now ctx' d ∧ s.found = d.verdict ∧
    s.parseTree = some nss.parseTree ∧ s.cs = some d.cs ∧ s.defs = some d.defs

theorem lookupSources_decided (hcmnd : ctx.user.cmnd ≠ none) {list : List Nss} (hlist : list ⊆ snl)
    {s : LookupState} (hlater : Later ctx s.check.ctx) (hs : Decided env cenv now snl ctx s) :
    Decided env cenv now snl ctx (lookupSources env cenv now list s) := by
  induction list generalizing s with
  | nil => exact hs
  | cons nss list ih =>
    have hwalk : Walked env cenv nss.parseTree now s.check.ctx
        (sudoersLookupCheck env cenv nss.parseTree now s.check) :=
      @lookupUserspecs_walked env cenv now nss.parseTree s.check.ctx { s.check with info := zeroInfo }
        (by rwa [hlater.cmnd]) rfl _ fun _ => List.mem_reverse.mp
    have hnext (hquery : ¬ nss.queryFails = true) :
        Later ctx (lookupSource env cenv now nss s).2.check.ctx ∧
          Decided env cenv now snl ctx (lookupSource env cenv now nss s).2 := by
      unfold lookupSource
      dsimp only
      cases hdecision : (sudoersLookupCheck env cenv nss.parseTree now s.check).1 with
      | none => exact ⟨later_trans hlater (Or.inl (hwalk.undecided hdecision)), hs⟩
      | some d =>
        obtain ⟨hrule, hafter⟩ := hwalk.decided d hdecision
        exact ⟨later_trans hlater hafter, Or.inr ⟨nss, hlist List.mem_cons_self,
          Bool.eq_false_iff.mpr hquery, _, d, hlater, hrule, rfl, rfl, rfl, rfl⟩⟩
    unfold lookupSources
    dsimp only
    split_ifs with hquery
    · exact hs
    · exact ih (fun n hn => hlist (List.mem_cons_of_mem nss hn)) (hnext hquery).1 (hnext hquery).2
    · exact (hnext hquery).2

/-- Whatever the sources and the rules before it, a command is allowed or denied only by a rule
that admits the request, and the settings are those of that rule. -/
theorem sudoersLookup_warranted (env : MatchEnv) (cenv : CommandEnv) (lenv : LookupEnv) (now : Int)
    (snl : List Nss) (ctx : { ctx : SudoersContext // ctx.user.cmnd ≠ none }) (info : CmndInfo)
    (status : CmndStatus) (settings : Settings) :
    Warranted env cenv lenv now snl ctx.1 settings
      (sudoersLookup env cenv lenv now snl ctx.1 info status settings) := by
  have hdecided := @lookupSources_decided env cenv now ctx.1 snl ctx.2 snl (fun _ h => h)
    (lookupStart ctx.1 info) (Or.inl rfl) (Or.inl rfl)
  unfold sudoersLookup finishLookup
  dsimp only
  split_ifs with hperms hfound
  · rcases hdecided with
      hnone | ⟨nss, hmem, hquery, ctx', d, hlater, hrule, hverdict, htree, hcs, hdefs⟩
    · rw [hnone] at hfound
      cases hfound
    · rw [hverdict, htree, hcs, hdefs]
      exact Or.inr ⟨nss, hmem, hquery, ctx', d, hlater, hrule, by simp, by simp, rfl⟩
  · exact Or.inl ⟨rfl, rfl, rfl⟩
  · exact Or.inl ⟨rfl, rfl, rfl⟩

end

end NextBSD.Sudoers
