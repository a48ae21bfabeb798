import NextBSD.Sudoers.Ldif
import Mathlib

/-!
# The rules of converted roles

A parse tree is read as the sequence of its rules, each with its users, hosts and command spec.
Joining roles into one user specification or one privilege does not change the sequence, as long
as lists with one address are one list.
-/

namespace NextBSD.Sudoers

open Interning

structure Row where
  users : List Member
  hosts : List Member
  defaults : List Defaults
  spec : Cmndspec
  deriving DecidableEq, Repr

def privilegeRows (users : List Member) (priv : Privilege) : List Row :=
  priv.cmndlist.map (fun spec => ⟨users, priv.hostlist, priv.defaults, spec⟩)

def userspecRows (us : Userspec) : List Row := us.privileges.flatMap (privilegeRows us.users)

def rows (tree : List Userspec) : List Row := tree.flatMap userspecRows

variable {ω : Type} (env : LdapEnv) (storeOptions : Bool)

def roleRows (role : ReadRole ω) : List Row :=
  rows (roleToSudoers env storeOptions [] role false false false)

theorem rows_append (tree tree' : List Userspec) : rows (tree ++ tree') = rows tree ++ rows tree' :=
  List.flatMap_append

theorem rows_singleton (us : Userspec) : rows [us] = userspecRows us := List.flatMap_singleton ..

variable {env storeOptions}

theorem roleRows_eq (role : ReadRole ω) : roleRows env storeOptions role =
    privilegeRows (role.users.map nameToMember) (rolePrivilege env storeOptions role) := by
  show rows [_] = _
  rw [rows_singleton]
  exact List.flatMap_singleton ..

/-! ## Run-as lists of a privilege

No step of the conversion looks at the run-as lists, so they can be set at its end. -/

abbrev Runas := Option (List Member) × Option (List Member)

def Cmndspec.runas (spec : Cmndspec) : Runas := (spec.runasuserlist, spec.runasgrouplist)

def Cmndspec.setRunas (runas : Runas) (spec : Cmndspec) : Cmndspec :=
  { spec with runasuserlist := runas.1, runasgrouplist := runas.2 }

def OptionState.setRunas (runas : Runas) (st : OptionState) : OptionState :=
  { st with spec := st.spec.setRunas runas }

def ReadRole.runas (role : ReadRole ω) : Runas :=
  (runasList role.runasusers, runasList role.runasgroups)

theorem keepOption_setRunas (op : Int) (var : String) (val : Option String) (runas : Runas)
    (st : OptionState) : keepOption storeOptions op var val (st.setRunas runas) =
      (keepOption storeOptions op var val st).setRunas runas := by
  cases storeOptions with
  | true => rfl
  | false =>
    have htags : (st.setRunas runas).spec.tags = st.spec.tags := rfl
    unfold keepOption
    rw [if_neg Bool.false_ne_true, if_neg Bool.false_ne_true, htags]
    cases sudoersDefaultsToTags var op st.spec.tags <;> rfl

theorem addOption_setRunas (runas : Runas) (st : OptionState) (opt : String) :
    addOption storeOptions (st.setRunas runas) opt =
      (addOption storeOptions st opt).setRunas runas := by
  unfold addOption
  split
  · exact keepOption_setRunas _ _ _ runas st
  · split
    all_goals first | rfl | exact keepOption_setRunas _ _ _ runas st

theorem foldl_addOption_setRunas (runas : Runas) (opts : List String) (st : OptionState) :
    opts.foldl (addOption storeOptions) (st.setRunas runas) =
      (opts.foldl (addOption storeOptions) st).setRunas runas := by
  induction opts generalizing st with
  | nil => rfl
  | cons opt opts ih => rw [List.foldl_cons, List.foldl_cons, addOption_setRunas, ih]

theorem fillCommand_setRunas (runas : Runas) (spec : Cmndspec) (cmnd : String) :
    fillCommand (spec.setRunas runas) cmnd = (fillCommand spec cmnd).setRunas runas := by
  unfold fillCommand
  dsimp only
  split <;> rfl

theorem inheritCmndspec_setRunas (runas : Runas) (prev : Cmndspec) :
    inheritCmndspec (prev.setRunas runas) = (inheritCmndspec prev).setRunas runas := rfl

theorem roleCmndspecs_setRunas (runas : Runas) (settings : Cmndspec) (cmnds : List String) :
    roleCmndspecs (settings.setRunas runas) cmnds =
      (roleCmndspecs settings cmnds).map (Cmndspec.setRunas runas) := by
  cases cmnds with
  | nil => rfl
  | cons cmnd cmnds =>
    unfold roleCmndspecs
    dsimp only
    rw [List.map_cons, List.map_map, fillCommand_setRunas, inheritCmndspec_setRunas]
    exact congrArg _ (List.map_congr_left fun c _ => fillCommand_setRunas runas _ c)

variable (env storeOptions) in
def plainCmndlist (role : ReadRole ω) : List Cmndspec :=
  (rolePrivilege env storeOptions { role with runasusers := [], runasgroups := [] }).cmndlist

theorem roleSettings_setRunas (role : ReadRole ω) :
    roleSettings env role.runasusers role.runasgroups role.options role.notbefore role.notafter
      storeOptions =
      (roleSettings env [] [] role.options role.notbefore role.notafter storeOptions).setRunas
        role.runas := by
  unfold roleSettings
  rw [← foldl_addOption_setRunas]
  rfl

theorem defaults_rolePrivilege_plain (role : ReadRole ω) :
    (rolePrivilege env storeOptions role).defaults =
      (roleSettings env [] [] role.options role.notbefore role.notafter storeOptions).defaults := by
  show (roleSettings _ _ _ _ _ _ _).defaults = _
  rw [roleSettings_setRunas]
  rfl

theorem cmndlist_eq (role : ReadRole ω) : (rolePrivilege env storeOptions role).cmndlist =
    (plainCmndlist env storeOptions role).map (Cmndspec.setRunas role.runas) := by
  show List.filter _ (roleCmndspecs _ _) ++ List.filter _ (roleCmndspecs _ _) =
    List.map _ (List.filter _ _ ++ List.filter _ _)
  rw [roleSettings_setRunas, List.map_append]
  show List.filter _ (roleCmndspecs (Cmndspec.setRunas role.runas _) _) ++
    List.filter _ (roleCmndspecs (Cmndspec.setRunas role.runas _) _) = _
  rw [roleCmndspecs_setRunas, List.filter_map, List.filter_map]
  rfl

theorem runas_rolePrivilege {role : ReadRole ω} {spec : Cmndspec}
    (h : spec ∈ (rolePrivilege env storeOptions role).cmndlist) : spec.runas = role.runas := by
  rw [cmndlist_eq] at h
  obtain ⟨plain, -, rfl⟩ := List.mem_map.mp h
  rfl

theorem length_cmndlist (role : ReadRole ω) :
    (rolePrivilege env storeOptions role).cmndlist.length = role.cmnds.length := by
  have hperm : (rolePrivilege env storeOptions role).cmndlist.Perm
      (roleCmndspecs (roleSettings env role.runasusers role.runasgroups role.options
        role.notbefore role.notafter storeOptions).spec role.cmnds) := by
    show (List.filter _ _ ++ List.filter _ _).Perm _
    refine List.perm_append_comm.trans ?_
    exact List.filter_append_perm (fun s : Cmndspec => s.cmnd.negated) _
  rw [hperm.length_eq]
  cases role.cmnds with
  | nil => rfl
  | cons cmnd cmnds =>
    show (_ :: List.map _ cmnds).length = _
    rw [List.length_cons, List.length_map, List.length_cons]

/-! ## Stored options -/

theorem defaults_addOption (st : OptionState) (opt : String) :
    (addOption false st opt).defaults = st.defaults := by
  have hkeep (op : Int) (var : String) (val : Option String) :
      (keepOption false op var val st).defaults = st.defaults := by
    unfold keepOption
    rw [if_neg Bool.false_ne_true]
    split <;> rfl
  unfold addOption
  split
  · exact hkeep _ _ _
  · split
    all_goals first | rfl | exact hkeep _ _ _

theorem defaults_rolePrivilege (role : ReadRole ω) :
    (rolePrivilege env false role).defaults = [] := by
  show (List.foldl (addOption false) _ role.options).defaults = []
  generalize hst : OptionState.mk _ _ = st
  have hnil : st.defaults = [] := by rw [← hst]
  clear hst
  induction role.options generalizing st with
  | nil => exact hnil
  | cons opt opts ih =>
    rw [List.foldl_cons]
    exact ih _ ((defaults_addOption st opt).trans hnil)

/-! ## Joining

The loop knows of the tree that its last user specification, privilege and command spec are those
of the role before. -/

variable (env) in
def roleHostlist (hosts : List String) : List Member :=
  if hosts.isEmpty then [⟨.all none, false⟩] else negatedLast (hosts.map (hostToMember env))

theorem hostlist_rolePrivilege (role : ReadRole ω) :
    (rolePrivilege env storeOptions role).hostlist = roleHostlist env role.hosts := rfl

variable (env storeOptions) in
theorem cmndlist_concat {role : ReadRole ω} (h : role.cmnds ≠ []) : ∃ specs last,
    (rolePrivilege env storeOptions role).cmndlist = specs ++ [last] ∧ last.runas = role.runas := by
  have hne : (rolePrivilege env storeOptions role).cmndlist ≠ [] := by
    rw [← List.length_pos_iff, length_cmndlist]
    exact List.length_pos_iff.mpr h
  refine ⟨_, _, (List.dropLast_append_getLast hne).symm, ?_⟩
  exact runas_rolePrivilege (List.getLast_mem hne)

variable (env storeOptions) in
inductive EndsWith (role : ReadRole ω) : List Userspec → Prop where
  | intro (others : List Userspec) (privs : List Privilege) {priv : Privilege}
      {specs : List Cmndspec} {last : Cmndspec} (hspecs : priv.cmndlist = specs ++ [last])
      (hhosts : priv.hostlist = roleHostlist env role.hosts)
      (hdefaults : storeOptions = false → priv.defaults = []) (hrunas : last.runas = role.runas) :
      EndsWith role
        (others ++ [{ users := role.users.map nameToMember, privileges := privs ++ [priv] }])

variable (env storeOptions) in
theorem endsWith_privilege {role : ReadRole ω} (h : role.cmnds ≠ []) (others : List Userspec)
    (privs : List Privilege) :
    EndsWith env storeOptions role (others ++
      [{ users := role.users.map nameToMember
         privileges := privs ++ [rolePrivilege env storeOptions role] }]) := by
  obtain ⟨specs, last, hspecs, hrunas⟩ := cmndlist_concat env storeOptions h
  refine EndsWith.intro others privs hspecs (hostlist_rolePrivilege role) ?_ hrunas
  intro hstore
  rw [hstore]
  exact defaults_rolePrivilege role

variable (env storeOptions) in
theorem joinPrivilege_eq (reuseRunas : Bool) (role : ReadRole ω) {prev : Privilege}
    {specs : List Cmndspec} {last : Cmndspec} (hspecs : prev.cmndlist = specs ++ [last])
    (hrunas : reuseRunas = true → last.runas = role.runas) :
    joinPrivilege reuseRunas prev (rolePrivilege env storeOptions role) =
      { prev with cmndlist := prev.cmndlist ++ (rolePrivilege env storeOptions role).cmndlist } := by
  unfold joinPrivilege
  dsimp only
  rw [hspecs, List.getLast?_concat]
  cases reuseRunas with
  | false => rfl
  | true =>
    have hsame : (rolePrivilege env storeOptions role).cmndlist.map
        (Cmndspec.setRunas last.runas) = (rolePrivilege env storeOptions role).cmndlist := by
      rw [hrunas rfl, cmndlist_eq, List.map_map]
      rfl
    show { prev with cmndlist := specs ++ [last] ++ List.map (Cmndspec.setRunas last.runas) _ } = _
    rw [hsame]

theorem userspecRows_concat (users : List Member) (privs : List Privilege) (priv : Privilege) :
    userspecRows { users := users, privileges := privs ++ [priv] } =
      userspecRows { users := users, privileges := privs } ++ privilegeRows users priv := by
  show List.flatMap _ _ = List.flatMap _ _ ++ _
  rw [List.flatMap_append, List.flatMap_singleton]

variable (storeOptions) in
/-- What `ldif_to_sudoers` checks before it reuses a part of the role before. -/
structure Reuse (prev role : ReadRole ω) (reuseUserspec reusePrivilege reuseRunas : Bool) :
    Prop where
  users : reuseUserspec = true → role.users = prev.users
  privilege : reusePrivilege = true → reuseUserspec = true ∧ storeOptions = false ∧
    role.hosts = prev.hosts
  runas : reuseRunas = true → role.runas = prev.runas

theorem roleToSudoers_rows {tree : List Userspec} {prev role : ReadRole ω}
    {reuseUserspec reusePrivilege reuseRunas : Bool} (hends : EndsWith env storeOptions prev tree)
    (hreuse : Reuse storeOptions prev role reuseUserspec reusePrivilege reuseRunas)
    (hcmnds : role.cmnds ≠ []) :
    EndsWith env storeOptions role
        (roleToSudoers env storeOptions tree role reuseUserspec reusePrivilege reuseRunas) ∧
      rows (roleToSudoers env storeOptions tree role reuseUserspec reusePrivilege reuseRunas) =
        rows tree ++ roleRows env storeOptions role := by
  cases hus : reuseUserspec with
  | false =>
    constructor
    · exact endsWith_privilege env storeOptions hcmnds tree []
    · show rows (tree ++ [_]) = _
      rw [rows_append]
      rfl
  | true =>
    obtain ⟨others, privs, hspecs, hhosts, hdefaults, hrunas⟩ := hends
    rename_i priv specs last
    have husers := hreuse.users hus
    unfold roleToSudoers
    rw [if_pos rfl, List.modifyLast_concat, roleRows_eq, ← husers, rows_append, rows_append, rows_singleton,
      rows_singleton, List.append_assoc]
    cases hpriv : reusePrivilege with
    | false =>
      constructor
      · exact endsWith_privilege env storeOptions hcmnds others (privs ++ [priv])
      · show _ ++ userspecRows { users := _, privileges := (privs ++ [priv]) ++ [_] } = _
        rw [userspecRows_concat _ (privs ++ [priv])]
    | true =>
      obtain ⟨-, hstore, hhostlist⟩ := hreuse.privilege hpriv
      have hjoin := joinPrivilege_eq env storeOptions reuseRunas role hspecs
        (fun h => hrunas.trans (hreuse.runas h).symm)
      have hadd : addPrivilege true reuseRunas
          { users := role.users.map nameToMember, privileges := privs ++ [priv] }
          (rolePrivilege env storeOptions role) =
          { users := role.users.map nameToMember
            privileges := privs ++
              [{ priv with
                 cmndlist := priv.cmndlist ++ (rolePrivilege env storeOptions role).cmndlist }] } := by
        unfold addPrivilege
        rw [if_pos (by simp)]
        dsimp only
        rw [List.modifyLast_concat, hjoin]
      rw [hadd]
      constructor
      · obtain ⟨specs', last', hspecs', hrunas'⟩ := cmndlist_concat env storeOptions hcmnds
        have hconcat : priv.cmndlist ++ (rolePrivilege env storeOptions role).cmndlist =
            (priv.cmndlist ++ specs') ++ [last'] := by
          rw [hspecs', List.append_assoc]
        refine EndsWith.intro others privs hconcat ?_ hdefaults hrunas'
        rw [hhostlist]
        exact hhosts
      · rw [userspecRows_concat, userspecRows_concat, List.append_assoc]
        rw [List.append_cancel_left_eq, List.append_cancel_left_eq]
        show List.map _ (priv.cmndlist ++ _) = List.map _ _ ++ List.map _ _
        rw [List.map_append, hostlist_rolePrivilege, hhostlist, ← hhosts, hdefaults hstore]
        subst hstore
        rw [defaults_rolePrivilege]

structure OneList (role role' : CachedRole ω) : Prop where
  users : role.users.addr = role'.users.addr → role.users = role'.users
  hosts : role.hosts.addr = role'.hosts.addr → role.hosts = role'.hosts
  runasusers : role.runasusers.addr = role'.runasusers.addr → role.runasusers = role'.runasusers
  runasgroups : role.runasgroups.addr = role'.runasgroups.addr →
    role.runasgroups = role'.runasgroups

theorem convertRoles_rows {tree : List Userspec} {prev : CachedRole ω} {roles : List (CachedRole ω)}
    (hone : (prev :: roles).Pairwise (fun a b => OneList b a)) (hcmnds : ∀ r ∈ roles, r.cmnds ≠ [])
    (hends : EndsWith env storeOptions prev.strings tree) :
    rows (convertRoles env storeOptions tree (some prev) roles) =
      rows tree ++ roles.flatMap (fun r => roleRows env storeOptions r.strings) := by
  induction roles generalizing tree prev with
  | nil =>
    rw [List.flatMap_nil, List.append_nil]
    rfl
  | cons role roles ih =>
    have hsame : OneList role prev := List.rel_of_pairwise_cons hone List.mem_cons_self
    unfold convertRoles
    dsimp only [Option.any_some]
    generalize huserspec : decide (role.users.addr = prev.users.addr) = reuseUserspec
    generalize hprivilege : (reuseUserspec && !storeOptions &&
      decide (role.hosts.addr = prev.hosts.addr)) = reusePrivilege
    generalize hrunas : (reusePrivilege && (decide (role.runasusers.addr = prev.runasusers.addr) &&
      decide (role.runasgroups.addr = prev.runasgroups.addr))) = reuseRunas
    have hreuse : Reuse storeOptions prev.strings role.strings reuseUserspec reusePrivilege
        reuseRunas := by
      constructor
      · intro h
        rw [h, decide_eq_true_eq] at huserspec
        exact congrArg Kept.value (hsame.users huserspec)
      · intro h
        rw [h, Bool.and_eq_true, Bool.and_eq_true, decide_eq_true_eq, Bool.not_eq_true'] at hprivilege
        exact ⟨hprivilege.1.1, hprivilege.1.2, congrArg Kept.value (hsame.hosts hprivilege.2)⟩
      · intro h
        rw [h, Bool.and_eq_true, Bool.and_eq_true, decide_eq_true_eq, decide_eq_true_eq] at hrunas
        show (runasList role.runasusers.value, runasList role.runasgroups.value) = _
        rw [hsame.runasusers hrunas.2.1, hsame.runasgroups hrunas.2.2]
        rfl
    obtain ⟨hends', hrows⟩ := roleToSudoers_rows hends hreuse (hcmnds role List.mem_cons_self)
    rw [ih (List.pairwise_cons.mp hone).2 (fun r hr => hcmnds r (List.mem_cons_of_mem _ hr)) hends',
      hrows, List.append_assoc, List.flatMap_cons]

theorem rows_convertRoles {roles : List (CachedRole ω)}
    (hone : roles.Pairwise (fun a b => OneList b a)) (hcmnds : ∀ r ∈ roles, r.cmnds ≠ []) :
    rows (convertRoles env storeOptions [] none roles) =
      roles.flatMap (fun r => roleRows env storeOptions r.strings) := by
  cases roles with
  | nil => rfl
  | cons role roles =>
    have hends := endsWith_privilege env storeOptions
      (show role.strings.cmnds ≠ [] from hcmnds role List.mem_cons_self) [] []
    exact convertRoles_rows hone (fun r hr => hcmnds r (List.mem_cons_of_mem _ hr)) hends

end NextBSD.Sudoers
