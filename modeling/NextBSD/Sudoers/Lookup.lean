import NextBSD.Sudoers.Chroot

/-!
# sudoers_lookup_check

User specifications, privileges and command specs are walked from the last to the first,
and the first command spec that matches decides.  The two date limits of a command spec
are tested one after the other into the same variable, so that the second overrules the
first where both are set.
-/

namespace NextBSD.Sudoers

variable (env : MatchEnv) (cenv : CommandEnv)

/-- The date test of `sudoers_lookup_check`. -/
def dateMatch (now : Int) (cs : Cmndspec) : Verdict :=
  let before :=
    match cs.notbefore with
    | none => Verdict.unspec
    | some t => if now < t then .deny else .allow
  match cs.notafter with
  | none => before
  | some t => if now > t then .deny else .allow

/-- What the walk carries: the request, `*info`, and the flags `FLAG_NO_USER` and
`FLAG_NO_HOST`. -/
structure CheckState where
  ctx : SudoersContext
  info : CmndInfo
  noUser : Bool
  noHost : Bool
  deriving DecidableEq, Repr

/-- The return value with `*matching_cs` and `*defs`. -/
structure Decision where
  verdict : Verdict
  cs : Cmndspec
  defs : List Defaults
  deriving DecidableEq, Repr

/-- One command spec: its verdict, the run-as member that matched, and what is left of the
request and of `*info`. -/
def lookupCmndspec (tree : ParseTree) (now : Int) (cs : Cmndspec) (s : CheckState) :
    Verdict × Option Member × CheckState :=
  if dateMatch now cs = .deny then (.unspec, none, s)
  else
    let runas := runaslistMatches env s.ctx tree cs.runasuserlist cs.runasgrouplist
    if runas.1 = .allow then
      let r := runWalk (cmndMatches (commandMatches cenv cs.runchroot) tree cs.cmnd)
        (s.ctx, some s.info)
      (r.1, runas.2, { s with ctx := r.2.1, info := r.2.2.getD s.info })
    else (.unspec, runas.2, s)

def runAsSelf (matchingUser : Option Member) (ctx : SudoersContext) : SudoersContext :=
  match matchingUser with
  | some { type := .myself, .. } => { ctx with runas := { ctx.runas with pw := ctx.user.pw } }
  | _ => ctx

def lookupCmndspecs (tree : ParseTree) (now : Int) (priv : Privilege) :
    List Cmndspec → CheckState → Option Decision × CheckState
  | [], s => (none, s)
  | cs :: rest, s =>
    let r := lookupCmndspec env cenv tree now cs s
    if r.1.specified then
      (some { verdict := r.1, cs := cs, defs := priv.defaults },
        { r.2.2 with ctx := runAsSelf r.2.1 r.2.2.ctx })
    else lookupCmndspecs tree now priv rest { r.2.2 with info := zeroInfo }

/-- `hostlist_matches` for a privilege. -/
def hostMatch (ctx : SudoersContext) (tree : ParseTree) (priv : Privilege) : Verdict :=
  (runWalk (hostlistMatches env ctx tree ctx.user.pw priv.hostlist) ()).1

/-- `userlist_matches` for a user specification. -/
def userMatch (ctx : SudoersContext) (tree : ParseTree) (us : Userspec) : Verdict :=
  (runWalk (userlistMatches env ctx tree ctx.user.pw us.users) ()).1

def lookupPrivileges (tree : ParseTree) (now : Int) :
    List Privilege → CheckState → Option Decision × CheckState
  | [], s => (none, s)
  | priv :: rest, s =>
    if hostMatch env s.ctx tree priv = .allow then
      match lookupCmndspecs env cenv tree now priv priv.cmndlist.reverse
          { s with noHost := false } with
      | (some d, s') => (some d, s')
      | (none, s') => lookupPrivileges tree now rest s'
    else lookupPrivileges tree now rest s

def lookupUserspecs (tree : ParseTree) (now : Int) :
    List Userspec → CheckState → Option Decision × CheckState
  | [], s => (none, s)
  | us :: rest, s =>
    if userMatch env s.ctx tree us = .allow then
      match lookupPrivileges env cenv tree now us.privileges.reverse
          { s with noUser := false } with
      | (some d, s') => (some d, s')
      | (none, s') => lookupUserspecs tree now rest s'
    else lookupUserspecs tree now rest s

/-- `sudoers_lookup_check`.  Without a decision the source returns `UNSPEC`. -/
def sudoersLookupCheck (tree : ParseTree) (now : Int) (s : CheckState) :
    Option Decision × CheckState :=
  lookupUserspecs env cenv tree now tree.userspecs.reverse { s with info := zeroInfo }

/-- The value that `sudoers_lookup_check` returns. -/
def Decision.result : Option Decision → Verdict
  | some d => d.verdict
  | none => .unspec

/-- `cmnd_matches` for a command spec, as far as the request goes. -/
def cmndRun (ctx : SudoersContext) (tree : ParseTree) (cs : Cmndspec) : Verdict × SudoersContext :=
  runWalk (cmndMatches (fun c ctx => ((commandMatches cenv cs.runchroot c (ctx, none)).1,
    (commandMatches cenv cs.runchroot c (ctx, none)).2.1)) tree cs.cmnd) ctx

def cmndMatch (ctx : SudoersContext) (tree : ParseTree) (cs : Cmndspec) : Verdict :=
  (cmndRun cenv ctx tree cs).1

variable {env cenv}

theorem cmndRules_projects (runchroot : Option String) :
    Projects Prod.fst (cmndRules (commandMatches cenv runchroot))
      (cmndRules (fun c ctx => ((commandMatches cenv runchroot c (ctx, none)).1,
        (commandMatches cenv runchroot c (ctx, none)).2.1))) where
  aliasType := rfl
  leaf := by
    intro t b s
    obtain ⟨ctx, info⟩ := s
    have hinfo := fun c => @commandMatches_info cenv runchroot c ctx info
    cases t with
    | all c =>
      cases c with
      | none => rfl
      | some c => simp only [cmndRules, (hinfo c).1, (hinfo c).2]
    | command c => simp only [cmndRules, (hinfo c).1, (hinfo c).2]
    | _ => rfl
  missing := fun _ _ _ => rfl
  matched := fun _ _ => rfl
  unmatched := rfl

theorem memberMatches_isSome' (R : MemberRules (SudoersContext × Option CmndInfo))
    (tree : ParseTree) (m : Member) (s : SudoersContext × Option CmndInfo) :
    ∃ r, memberMatches R tree (tree.aliases.length + 1) m { used := [], st := s } = some r := by
  refine memberMatches_isSome R tree _ m _ ?_
  have := unmarked_le tree []
  show unmarked tree [] < _
  omega

theorem cmndMatches_restores {ctx : SudoersContext} {cs : Cmndspec}
    (h : Restores cenv ctx cs.runchroot) (tree : ParseTree) (info : Option CmndInfo) :
    ∃ info', runWalk (cmndMatches (commandMatches cenv cs.runchroot) tree cs.cmnd) (ctx, info) =
      (cmndMatch cenv ctx tree cs, ctx, info') := by
  obtain ⟨⟨v, t⟩, hrun⟩ := memberMatches_isSome' (cmndRules (commandMatches cenv cs.runchroot))
    tree cs.cmnd (ctx, info)
  have hproj := memberMatches_project (@cmndRules_projects cenv cs.runchroot) tree
    (tree.aliases.length + 1) cs.cmnd { used := [], st := (ctx, info) }
  rw [hrun] at hproj
  have hleaf : ∀ t b, ((cmndRules (fun c ctx => ((commandMatches cenv cs.runchroot c
      (ctx, none)).1, (commandMatches cenv cs.runchroot c (ctx, none)).2.1))).leaf t b ctx).2 =
      ctx := by
    have hframe := fun c => (@commandMatches_frame_iff cenv cs.runchroot c ctx none).mpr h
    intro t b
    cases t with
    | all c =>
      cases c with
      | none => rfl
      | some c => exact hframe c
    | command c => exact hframe c
    | _ => rfl
  have hctx : t.st.1 = ctx :=
    memberMatches_fixed hleaf (fun _ _ => rfl) (fun _ => rfl) tree _ cs.cmnd
      { used := [], st := ctx } v { used := t.used, st := t.st.1 } rfl hproj.symm
  refine ⟨t.st.2, ?_⟩
  have hcmnd : cmndMatch cenv ctx tree cs = v := by
    unfold cmndMatch cmndRun runWalk cmndMatches
    rw [← hproj]
    rfl
  unfold runWalk cmndMatches
  rw [hrun, hcmnd]
  show (v, t.st) = (v, ctx, t.st.2)
  rw [← hctx]

/-! ## The walk as a search -/

/-- A command spec with the privilege and the user specification it stands in. -/
structure Spec where
  us : Userspec
  priv : Privilege
  cs : Cmndspec
  deriving DecidableEq, Repr

def specs (tree : ParseTree) : List Spec :=
  tree.userspecs.flatMap (fun us => us.privileges.flatMap (fun priv =>
    priv.cmndlist.map (fun cs => { us := us, priv := priv, cs := cs })))

theorem specs_reverse (tree : ParseTree) :
    (specs tree).reverse = tree.userspecs.reverse.flatMap (fun us =>
      us.privileges.reverse.flatMap (fun priv =>
        priv.cmndlist.reverse.map (fun cs => { us := us, priv := priv, cs := cs }))) := by
  unfold specs
  rw [List.reverse_flatMap]
  congr 1
  funext us
  show (us.privileges.flatMap _).reverse = _
  rw [List.reverse_flatMap]
  congr 1
  funext priv
  exact List.map_reverse.symm

variable (env cenv)

def Applies (ctx : SudoersContext) (tree : ParseTree) (x : Spec) : Prop :=
  userMatch env ctx tree x.us = .allow ∧ hostMatch env ctx tree x.priv = .allow ∧
    (runaslistMatches env ctx tree x.cs.runasuserlist x.cs.runasgrouplist).1 = .allow

instance (ctx : SudoersContext) (tree : ParseTree) (x : Spec) :
    Decidable (Applies env ctx tree x) := by
  unfold Applies
  infer_instance

def Tested (ctx : SudoersContext) (tree : ParseTree) (now : Int) (x : Spec) : Prop :=
  Applies env ctx tree x ∧ dateMatch now x.cs ≠ .deny

instance (ctx : SudoersContext) (tree : ParseTree) (now : Int) (x : Spec) :
    Decidable (Tested env ctx tree now x) := by
  unfold Tested
  infer_instance

def sourceVerdict (ctx : SudoersContext) (tree : ParseTree) (now : Int) (x : Spec) : Verdict :=
  if Tested env ctx tree now x then cmndMatch cenv ctx tree x.cs else .unspec

def decisionOf (ctx : SudoersContext) (tree : ParseTree) (now : Int) (x : Spec) : Decision :=
  { verdict := sourceVerdict env cenv ctx tree now x, cs := x.cs, defs := x.priv.defaults }

variable {env cenv} {ctx : SudoersContext} {tree : ParseTree} {now : Int}

theorem lookupCmndspec_eq {x : Spec} (huser : userMatch env ctx tree x.us = .allow)
    (hhost : hostMatch env ctx tree x.priv = .allow)
    (hrestores : Tested env ctx tree now x → Restores cenv ctx x.cs.runchroot)
    {s : CheckState} (hs : s.ctx = ctx) :
    (lookupCmndspec env cenv tree now x.cs s).1 = sourceVerdict env cenv ctx tree now x ∧
      (lookupCmndspec env cenv tree now x.cs s).2.2.ctx = ctx := by
  subst hs
  unfold lookupCmndspec sourceVerdict
  by_cases hdate : dateMatch now x.cs = .deny
  · have hskip : ¬ Tested env s.ctx tree now x := fun h => h.2 hdate
    rw [if_pos hdate, if_neg hskip]
    exact ⟨rfl, rfl⟩
  · rw [if_neg hdate]
    by_cases hrunas : (runaslistMatches env s.ctx tree x.cs.runasuserlist
        x.cs.runasgrouplist).1 = .allow
    · have htested : Tested env s.ctx tree now x := ⟨⟨huser, hhost, hrunas⟩, hdate⟩
      obtain ⟨info', hrun⟩ := cmndMatches_restores (hrestores htested) tree (some s.info)
      simp only [if_pos hrunas, if_pos htested, hrun, and_self]
    · have hskip : ¬ Tested env s.ctx tree now x := fun h => hrunas h.1.2.2
      simp only [if_neg hrunas, if_neg hskip, and_self]

theorem lookupCmndspecs_eq {us : Userspec} {priv : Privilege}
    (huser : userMatch env ctx tree us = .allow) (hhost : hostMatch env ctx tree priv = .allow)
    {list : List Cmndspec}
    (hrestores : ∀ cs ∈ list, Tested env ctx tree now { us := us, priv := priv, cs := cs } →
      Restores cenv ctx cs.runchroot) :
    ∀ s : CheckState, s.ctx = ctx →
      (lookupCmndspecs env cenv tree now priv list s).1 =
          ((list.map (fun cs => { us := us, priv := priv, cs := cs })).find?
            (fun x => (sourceVerdict env cenv ctx tree now x).specified)).map
              (decisionOf env cenv ctx tree now) ∧
        ((lookupCmndspecs env cenv tree now priv list s).1 = none →
          (lookupCmndspecs env cenv tree now priv list s).2.ctx = ctx) := by
  induction list with
  | nil => exact fun s hs => ⟨rfl, fun _ => hs⟩
  | cons cs list ih =>
    intro s hs
    obtain ⟨hverdict, hctx⟩ := lookupCmndspec_eq (x := { us := us, priv := priv, cs := cs })
      huser hhost (hrestores cs List.mem_cons_self) hs
    rw [List.map_cons]
    unfold lookupCmndspecs
    simp only [hverdict]
    by_cases hv : (sourceVerdict env cenv ctx tree now
        { us := us, priv := priv, cs := cs }).specified = true
    · simp only [if_pos hv]
      rw [List.find?_cons_of_pos (by exact hv)]
      exact ⟨rfl, fun h => by simp at h⟩
    · simp only [if_neg hv]
      rw [List.find?_cons_of_neg (by exact hv)]
      exact ih (fun c hc => hrestores c (List.mem_cons_of_mem cs hc)) _ hctx

theorem find?_not_applies {l : List Spec} (h : ∀ x ∈ l, ¬ Applies env ctx tree x) :
    l.find? (fun x => (sourceVerdict env cenv ctx tree now x).specified) = none := by
  rw [List.find?_eq_none]
  intro x hx
  have hskip : ¬ Tested env ctx tree now x := fun hand => h x hx hand.1
  show ¬ (if Tested env ctx tree now x then cmndMatch cenv ctx tree x.cs
    else Verdict.unspec).specified = true
  rw [if_neg hskip]
  decide

theorem lookupPrivileges_eq {us : Userspec} (huser : userMatch env ctx tree us = .allow)
    {list : List Privilege}
    (hrestores : ∀ priv ∈ list, ∀ cs ∈ priv.cmndlist,
      Tested env ctx tree now { us := us, priv := priv, cs := cs } →
        Restores cenv ctx cs.runchroot) :
    ∀ s : CheckState, s.ctx = ctx →
      (lookupPrivileges env cenv tree now list s).1 =
          ((list.flatMap (fun priv => priv.cmndlist.reverse.map
            (fun cs => { us := us, priv := priv, cs := cs }))).find?
              (fun x => (sourceVerdict env cenv ctx tree now x).specified)).map
                (decisionOf env cenv ctx tree now) ∧
        ((lookupPrivileges env cenv tree now list s).1 = none →
          (lookupPrivileges env cenv tree now list s).2.ctx = ctx) := by
  induction list with
  | nil => exact fun s hs => ⟨rfl, fun _ => hs⟩
  | cons priv list ih =>
    intro s hs
    have hrest := ih (fun p hp => hrestores p (List.mem_cons_of_mem priv hp))
    rw [List.flatMap_cons, List.find?_append]
    unfold lookupPrivileges
    by_cases hhost : hostMatch env s.ctx tree priv = .allow
    · rw [if_pos hhost]
      rw [hs] at hhost
      have hcmndlist : ∀ cs ∈ priv.cmndlist.reverse,
          Tested env ctx tree now { us := us, priv := priv, cs := cs } →
            Restores cenv ctx cs.runchroot :=
        fun cs hcs => hrestores priv List.mem_cons_self cs (List.mem_reverse.mp hcs)
      obtain ⟨hfirst, hctx⟩ := lookupCmndspecs_eq huser hhost hcmndlist
        { s with noHost := false } hs
      cases hrun : lookupCmndspecs env cenv tree now priv priv.cmndlist.reverse
          { s with noHost := false } with
      | mk d s' =>
        rw [hrun] at hfirst hctx
        cases d with
        | none =>
          have hnone := Option.map_eq_none_iff.mp hfirst.symm
          rw [hnone, Option.none_or]
          exact hrest s' (hctx rfl)
        | some d =>
          obtain ⟨x, hx, hd⟩ := Option.map_eq_some_iff.mp hfirst.symm
          rw [hx, Option.some_or, Option.map_some, hd]
          exact ⟨rfl, fun h => by simp at h⟩
    · rw [if_neg hhost]
      rw [hs] at hhost
      rw [find?_not_applies (fun x hx hap => ?_), Option.none_or]
      · exact hrest s hs
      · obtain ⟨cs, -, rfl⟩ := List.mem_map.mp hx
        exact hhost hap.2.1

theorem lookupUserspecs_eq {list : List Userspec}
    (hrestores : ∀ us ∈ list, ∀ priv ∈ us.privileges, ∀ cs ∈ priv.cmndlist,
      Tested env ctx tree now { us := us, priv := priv, cs := cs } →
        Restores cenv ctx cs.runchroot) :
    ∀ s : CheckState, s.ctx = ctx →
      (lookupUserspecs env cenv tree now list s).1 =
        ((list.flatMap (fun us => us.privileges.reverse.flatMap (fun priv =>
          priv.cmndlist.reverse.map (fun cs => { us := us, priv := priv, cs := cs })))).find?
            (fun x => (sourceVerdict env cenv ctx tree now x).specified)).map
              (decisionOf env cenv ctx tree now) := by
  induction list with
  | nil => exact fun s _ => rfl
  | cons us list ih =>
    intro s hs
    have hrest := ih (fun u hu => hrestores u (List.mem_cons_of_mem us hu))
    rw [List.flatMap_cons, List.find?_append]
    unfold lookupUserspecs
    by_cases huser : userMatch env s.ctx tree us = .allow
    · rw [if_pos huser]
      rw [hs] at huser
      have hprivileges : ∀ priv ∈ us.privileges.reverse, ∀ cs ∈ priv.cmndlist,
          Tested env ctx tree now { us := us, priv := priv, cs := cs } →
            Restores cenv ctx cs.runchroot :=
        fun priv hp => hrestores us List.mem_cons_self priv (List.mem_reverse.mp hp)
      obtain ⟨hfirst, hctx⟩ := lookupPrivileges_eq huser hprivileges { s with noUser := false } hs
      cases hrun : lookupPrivileges env cenv tree now us.privileges.reverse
          { s with noUser := false } with
      | mk d s' =>
        rw [hrun] at hfirst hctx
        cases d with
        | none =>
          have hnone := Option.map_eq_none_iff.mp hfirst.symm
          rw [hnone, Option.none_or]
          exact hrest s' (hctx rfl)
        | some d =>
          obtain ⟨x, hx, hd⟩ := Option.map_eq_some_iff.mp hfirst.symm
          rw [hx, Option.some_or, Option.map_some, hd]
    · rw [if_neg huser]
      rw [hs] at huser
      rw [find?_not_applies (fun x hx hap => ?_), Option.none_or]
      · exact hrest s hs
      · obtain ⟨priv, -, hx⟩ := List.mem_flatMap.mp hx
        obtain ⟨cs, -, rfl⟩ := List.mem_map.mp hx
        exact huser hap.1

def AllRestore (env : MatchEnv) (cenv : CommandEnv) (ctx : SudoersContext) (tree : ParseTree)
    (now : Int) : Prop :=
  ∀ x ∈ specs tree, Tested env ctx tree now x → Restores cenv ctx x.cs.runchroot

theorem mem_specs {us : Userspec} {priv : Privilege} {cs : Cmndspec}
    (hus : us ∈ tree.userspecs) (hpriv : priv ∈ us.privileges) (hcs : cs ∈ priv.cmndlist) :
    { us := us, priv := priv, cs := cs } ∈ specs tree :=
  List.mem_flatMap.mpr ⟨us, hus, List.mem_flatMap.mpr ⟨priv, hpriv, List.mem_map.mpr ⟨cs, hcs, rfl⟩⟩⟩

theorem sudoersLookupCheck_eq (hrestores : AllRestore env cenv ctx tree now) {s : CheckState}
    (hs : s.ctx = ctx) :
    (sudoersLookupCheck env cenv tree now s).1 =
      ((specs tree).reverse.find?
        (fun x => (sourceVerdict env cenv ctx tree now x).specified)).map
          (decisionOf env cenv ctx tree now) := by
  rw [specs_reverse]
  refine lookupUserspecs_eq (fun us hus priv hpriv cs hcs => ?_) _ hs
  exact hrestores _ (mem_specs (List.mem_reverse.mp hus) hpriv hcs)

theorem sudoersLookupCheck_result (hrestores : AllRestore env cenv ctx tree now) {s : CheckState}
    (hs : s.ctx = ctx) :
    Decision.result (sudoersLookupCheck env cenv tree now s).1 =
      Verdict.lastMatch (sourceVerdict env cenv ctx tree now) (specs tree) := by
  rw [sudoersLookupCheck_eq hrestores hs, Verdict.lastMatch_eq_find?]
  cases (specs tree).reverse.find?
    (fun x => (sourceVerdict env cenv ctx tree now x).specified) <;> rfl

/-! ## The validity window -/

def InWindow (now : Int) (cs : Cmndspec) : Prop :=
  (∀ t ∈ cs.notbefore, t ≤ now) ∧ (∀ t ∈ cs.notafter, now ≤ t)

instance (now : Int) (cs : Cmndspec) : Decidable (InWindow now cs) := by
  unfold InWindow
  infer_instance

theorem dateMatch_inWindow {cs : Cmndspec} (h : InWindow now cs) : dateMatch now cs ≠ .deny := by
  obtain ⟨hbefore, hafter⟩ := h
  unfold dateMatch
  cases hna : cs.notafter with
  | some t =>
    have := hafter t hna
    simp only [if_neg (show ¬ now > t by omega)]
    decide
  | none =>
    cases hnb : cs.notbefore with
    | none =>
      show Verdict.unspec ≠ .deny
      decide
    | some t =>
      have := hbefore t hnb
      simp only [if_neg (show ¬ now < t by omega)]
      decide

def windowVerdict (env : MatchEnv) (cenv : CommandEnv) (ctx : SudoersContext)
    (tree : ParseTree) (now : Int) (x : Spec) : Verdict :=
  if Applies env ctx tree x ∧ InWindow now x.cs then cmndMatch cenv ctx tree x.cs else .unspec

/-- The last command spec that matches in its window decides, and outside its window none
allows. -/
def LastInWindow (env : MatchEnv) (cenv : CommandEnv) (tree : ParseTree) (now : Int)
    (s : CheckState) : Prop :=
  Decision.result (sudoersLookupCheck env cenv tree now s).1 =
      Verdict.lastMatch (windowVerdict env cenv s.ctx tree now) (specs tree) ∧
    ∀ d, (sudoersLookupCheck env cenv tree now s).1 = some d → d.verdict = .allow →
      InWindow now d.cs

theorem windowVerdict_inWindow {x : Spec} (h : InWindow now x.cs) :
    windowVerdict env cenv ctx tree now x = sourceVerdict env cenv ctx tree now x := by
  unfold windowVerdict sourceVerdict
  by_cases hap : Applies env ctx tree x
  · rw [if_pos ⟨hap, h⟩, if_pos ⟨hap, dateMatch_inWindow h⟩]
  · rw [if_neg (fun hand => hap hand.1), if_neg (fun hand => hap hand.1)]

theorem windowVerdict_outside {x : Spec} (h : ¬ InWindow now x.cs) :
    windowVerdict env cenv ctx tree now x = .unspec :=
  if_neg (fun hand => h hand.2)

theorem windowVerdict_unspec {x : Spec} (h : sourceVerdict env cenv ctx tree now x = .unspec) :
    windowVerdict env cenv ctx tree now x = .unspec := by
  by_cases hwin : InWindow now x.cs
  · rw [windowVerdict_inWindow hwin, h]
  · exact windowVerdict_outside hwin

theorem lastMatch_windowVerdict {pre post : List Spec} {x : Spec}
    (hpost : ∀ y ∈ post, sourceVerdict env cenv ctx tree now y = .unspec) :
    Verdict.lastMatch (windowVerdict env cenv ctx tree now) (pre ++ x :: post) =
      (windowVerdict env cenv ctx tree now x).orElse
        (Verdict.lastMatch (windowVerdict env cenv ctx tree now) pre) := by
  have hnone : Verdict.lastMatch (windowVerdict env cenv ctx tree now) post = .unspec :=
    Verdict.lastMatch_eq_unspec.mpr (fun y hy => windowVerdict_unspec (hpost y hy))
  rw [Verdict.lastMatch_append, Verdict.lastMatch_cons, hnone, Verdict.orElse_unspec]

def lsCmndspec (notbefore notafter : Option Int) : Cmndspec where
  runasuserlist := some [{ type := .all none, negated := false }]
  runasgrouplist := some [{ type := .all none, negated := false }]
  cmnd := { type := .command { cmnd := some "/bin/ls", args := none, digests := [] },
            negated := false }
  tags := tagsInit
  timeout := -1
  notbefore := notbefore
  notafter := notafter
  runcwd := none
  runchroot := none
  role := none
  type := none
  apparmorProfile := none
  privs := none
  limitprivs := none

/-- `ann ALL = (ALL : ALL) /bin/ls` with the limits given. -/
def lsTree (notbefore notafter : Option Int) : ParseTree where
  userspecs := [{ users := [{ type := .word "ann", negated := false }],
                  privileges := [{ hostlist := [{ type := .all none, negated := false }],
                                   cmndlist := [lsCmndspec notbefore notafter],
                                   defaults := [] }] }]
  defaults := []
  aliases := []
  shost := none
  lhost := none

def asked : CheckState :=
  { ctx := asOperator, info := zeroInfo, noUser := true, noHost := true }

theorem allRestore_lsTree (notbefore notafter : Option Int) (now : Int) :
    AllRestore quietEnv jailEnv asOperator (lsTree notbefore notafter) now := by
  intro x hx _
  have hx' : x.cs = lsCmndspec notbefore notafter := by
    obtain ⟨us, hus, hx⟩ := List.mem_flatMap.mp hx
    cases List.mem_singleton.mp hus
    obtain ⟨priv, hpriv, hx⟩ := List.mem_flatMap.mp hx
    cases List.mem_singleton.mp hpriv
    obtain ⟨cs, hcs, rfl⟩ := List.mem_map.mp hx
    exact List.mem_singleton.mp hcs
  rw [hx']
  trivial

end NextBSD.Sudoers
