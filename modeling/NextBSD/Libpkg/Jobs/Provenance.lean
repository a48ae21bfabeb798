import NextBSD.Libpkg.Jobs.Expansion

/-!
# Where pkg itself comes from

Patch 0001 in two halves: the universe takes no pkg or pkg-devel from a foreign
repository, and `nextbsd_check_install` turns down a package file that does not say it
is a NextBSD package.  A run builds the universe and installs from it, in any order.
-/

namespace NextBSD.Libpkg

open Program

def NoForeign (u : JobsUniverse) : Prop :=
  ∀ ref item, u.itemAt ref = some item → nextbsdForeignPkg item.pkg = false

abbrev FilteredSteps (env : UniverseEnv) : JobsUniverse → JobsUniverse → Prop :=
  UniverseSteps env fun p => nextbsdForeignPkg p = false

section
variable {env : UniverseEnv}

theorem foreign_of_type {p : Pkg} (h : p.type ≠ .remote) : nextbsdForeignPkg p = false := by
  rw [nextbsdForeignPkg, decide_eq_false h]
  rfl

theorem localPkg_type {uid : String} {p : Pkg} (h : env.localPkg uid = some p) :
    p.type = .installed := by
  obtain ⟨row, -, rfl⟩ := Option.map_eq_some_iff.mp h
  rfl

theorem Admitted.notForeign {u : JobsUniverse} {p : Pkg}
    (h : Admitted env (fun p => nextbsdForeignPkg p = false) u p) : nextbsdForeignPkg p = false := by
  cases h with
  | given given => exact given
  | installed row => exact foreign_of_type (by rw [localPkg_type row]; decide)
  | remote row _ => exact row.notForeign
  | provider row _ =>
    obtain ⟨name, isShlib, digest, row, -, rfl⟩ := row
    exact foreign_of_type (by simp [providerRow])

theorem itemAt_push_cases {u : JobsUniverse} {pkg : Pkg} {digest : String} {ref : ItemRef}
    {item : UniverseItem} (h : (u.push pkg digest).itemAt ref = some item) :
    u.itemAt ref = some item ∨ item = { pkg := pkg } := by
  rw [JobsUniverse.itemAt, find_push] at h
  by_cases huid : ref.uid = pkg.uid
  · rw [if_pos huid, Option.bind_some, List.getElem?_append] at h
    split at h
    · left
      rw [JobsUniverse.itemAt, huid]
      cases hfind : u.find pkg.uid with
      | none => rw [hfind] at h; simp at h
      | some chain => rw [hfind] at h; exact h
    · right
      have hmem := List.mem_of_getElem? h
      exact List.mem_singleton.mp hmem
  · rw [if_neg huid] at h
    exact Or.inl h

theorem UniverseStep.forall_items {Given : Pkg → Prop} {F : Pkg → Prop}
    (hbasic : ∀ p q : Pkg, q.basic = p.basic → F p → F q) {u u' : JobsUniverse}
    (hadmitted : ∀ p, Admitted env Given u p → F p) (h : UniverseStep env Given u u')
    (hu : ∀ ref item, u.itemAt ref = some item → F item.pkg) :
    ∀ ref item, u'.itemAt ref = some item → F item.pkg := by
  intro ref item hitem
  cases h with
  | push admitted _ _ _ =>
    rcases itemAt_push_cases hitem with h | rfl
    · exact hu ref item h
    · exact hbasic _ _ (basic_pkgValidate env _) (hadmitted _ admitted)
  | load r =>
    rw [itemAt_update] at hitem
    obtain ⟨old, hold, rfl⟩ := Option.map_eq_some_iff.mp hitem
    have hF := hu ref old hold
    split
    · exact hbasic _ _ (basic_ensureLoaded env _) hF
    · exact hF
  | mark r =>
    rw [itemAt_update] at hitem
    obtain ⟨old, hold, rfl⟩ := Option.map_eq_some_iff.mp hitem
    have hF := hu ref old hold
    split <;> exact hF
  | other items seen =>
    have hsame : u'.itemAt ref = u.itemAt ref := by
      show (List.lookup ref.uid u'.items).bind _ = _
      rw [items]
      rfl
    exact hu ref item (hsame ▸ hitem)

theorem FilteredSteps.noForeign {u u' : JobsUniverse} (h : FilteredSteps env u u')
    (hu : NoForeign u) : NoForeign u' := by
  refine h.keep (fun v v' hstep hv => ?_) hu
  exact hstep.forall_items (fun p q hbasic hp => (foreign_of_basic hbasic).trans hp)
    (fun p hp => hp.notForeign) hv

theorem addPkg_moves {p : Pkg} (h : nextbsdForeignPkg p = false) :
    Moves (addPkg env p) (FilteredSteps env) :=
  ((addPkg_guarantees env _ p).consequence (fun _ _ => Admitted.given h) fun _ _ hq => hq).moves

theorem processItem_moves {p : Pkg} (fuel : Nat) (h : nextbsdForeignPkg p = false) :
    Moves (processItem env fuel p) (FilteredSteps env) :=
  ((processItem_guarantees fuel p).consequence (fun _ _ => Admitted.given h) fun _ _ hq => hq).moves

theorem addAll_moves {pkgs : List Pkg} (h : ∀ p ∈ pkgs, nextbsdForeignPkg p = false) :
    Moves (addAll env pkgs) (FilteredSteps env) :=
  moves_forM fun p hp => (addPkg_moves (h p hp)).bind fun _ => moves_pure

theorem selectUpgrade_moves (force : Bool) (lp selected : Option Pkg) (pkg : Pkg) :
    Moves (selectUpgrade env force lp selected pkg) (FilteredSteps env) := by
  have hstarts : Moves (startsUpgrade env lp selected pkg) (FilteredSteps env) := by
    cases selected with
    | some _ => exact moves_pure
    | none =>
      cases lp with
      | none => exact moves_pure
      | some lp => exact askUpgrade_moves _ _
  rw [selectUpgrade]
  split
  · exact moves_pure
  · refine hstarts.bind fun b => ?_
    split <;> exact moves_pure

theorem getUpgradeCandidates_moves {uid : String} {lp : Option Pkg} {force : Bool}
    {version : Option String} (hlp : ∀ p, lp = some p → nextbsdForeignPkg p = false) :
    Moves (getUpgradeCandidates env uid lp force version) (FilteredSteps env) := by
  have hrepo : Moves (repoCandidates env uid lp force version) (FilteredSteps env) := by
    rw [repoCandidates]
    split
    · exact moves_pure
    · refine (moves_foldlM (selectUpgrade_moves force lp) _ none).bind fun selected => ?_
      refine (addAll_moves fun p hp => hlp p (Option.mem_toList.mp hp)).bind fun _ => ?_
      split
      · exact moves_pure
      · refine (addAll_moves fun p hp => ?_).bind fun _ => moves_get_bind fun _ => moves_pure
        have hmem := List.mem_reverse.mp hp
        simp only [List.mem_filter, Bool.and_eq_true, Bool.not_eq_true'] at hmem
        exact hmem.2.1
  rw [getUpgradeCandidates]
  refine moves_get_bind fun u => ?_
  split
  · split
    · exact moves_pure
    · exact hrepo
  · exact hrepo

end

/-! ### Runs -/

/-- A step of a job.  `install` passes an archive to `pkg_add_common`; `source` is the item of the job, none for
`pkg add`, and with `fromFile` the job writes "local file" for its repository. -/
inductive Move where
  | process (env : UniverseEnv) (fuel : Nat) (pkg : Pkg)
  | add (env : UniverseEnv) (pkg : Pkg)
  | load (env : UniverseEnv) (uid : String)
  | candidates (env : UniverseEnv) (uid : String) (lp : Option Pkg) (force : Bool)
      (version : Option String)
  | install (source : Option ItemRef) (fromFile : Bool) (archive : Pkg)

/-- `new->reponame = xstrdup("local file")`. -/
def asLocalFile (p : Pkg) : Pkg := { p with reponame := some "local file" }

/-- The `remote` that `pkg_add_common` is called with. -/
def sourcePkg (u : JobsUniverse) (source : Option ItemRef) (fromFile : Bool) : Option Pkg :=
  (source.bind u.itemAt).map fun item => if fromFile then asLocalFile item.pkg else item.pkg

/-- What the callers pass: a package of the universe or one that is not from a
repository, and an item of the universe to install. -/
def Move.Allowed (u : JobsUniverse) : Move → Prop
  | .process _ _ pkg => (∃ ref item, u.itemAt ref = some item ∧ item.pkg = pkg) ∨ pkg.type ≠ .remote
  | .add _ pkg => pkg.type ≠ .remote
  | .load _ _ => True
  | .candidates _ _ lp _ _ => ∀ p, lp = some p → p.type ≠ .remote
  | .install source _ _ => ∀ ref, source = some ref → (u.itemAt ref).isSome = true

def Move.next (u : JobsUniverse) : Move → Option JobsUniverse
  | .process env fuel pkg => ((processItem env fuel pkg).run u).map Prod.snd
  | .add env pkg => ((addPkg env pkg).run u).map Prod.snd
  | .load env uid => ((getLocal env uid).run u).map Prod.snd
  | .candidates env uid lp force version =>
    ((getUpgradeCandidates env uid lp force version).run u).map Prod.snd
  | .install (some ref) true _ =>
    some (u.update ref fun item => { item with pkg := asLocalFile item.pkg })
  | .install _ _ _ => some u

/-- A run from the empty universe: the moves, each with the universe before it. -/
inductive JobRun : List (JobsUniverse × Move) → JobsUniverse → Prop where
  | start : JobRun [] {}
  | step {moves : List (JobsUniverse × Move)} {u u' : JobsUniverse} {m : Move}
      (run : JobRun moves u) (allowed : m.Allowed u) (next : m.next u = some u') :
      JobRun (moves ++ [(u, m)]) u'

/-- An archive of pkg itself that gets past the check comes from the NextBSD repository
through the universe, or it is a package file with the annotation. -/
def FromNextBSD (u : JobsUniverse) : Move → Prop
  | .install source fromFile archive =>
    nextbsdCheckOrigin archive (sourcePkg u source fromFile) = .ok () →
    isPkgItself archive.name = true →
      (∃ ref item, source = some ref ∧ u.itemAt ref = some item ∧
        sourcePkg u source fromFile = some item.pkg ∧ item.pkg.type = .remote ∧
        item.pkg.reponame = some nextbsdPkgRepo) ∨
      (nextbsdFromRepo (sourcePkg u source fromFile) = false ∧
        pkgKvGet archive.annotations nextbsdOriginKey = some nextbsdOriginValue)
  | _ => True

/-- The installs for which the patch is enough: no archive of pkg itself has a remote
source outside NextBSD, and no remote pkg itself is passed off as a local file. -/
def Sufficient (u : JobsUniverse) : Move → Prop
  | .install source fromFile archive =>
    ∀ p, sourcePkg u source fromFile = some p → p.type = .remote →
      (isPkgItself archive.name = true → p.reponame = some nextbsdPkgRepo) ∧
      (fromFile = true → isPkgItself p.name = false)
  | _ => True

theorem nextbsdFromRepo_some {p : Pkg} : nextbsdFromRepo (some p) = decide (p.type = .remote) := rfl

theorem noForeign_empty : NoForeign {} := by
  intro ref item hitem
  cases hitem

theorem noForeign_of_moves {env : UniverseEnv} {α : Type} {m : UniverseM α}
    (h : Moves m (FilteredSteps env)) {u u' : JobsUniverse} (hu : NoForeign u)
    (hnext : (m.run u).map Prod.snd = some u') : NoForeign u' := by
  obtain ⟨r, hr, rfl⟩ := Option.map_eq_some_iff.mp hnext
  exact (h trivial hr).1.noForeign hu

theorem noForeign_rename {u : JobsUniverse} (hu : NoForeign u) {ref : ItemRef}
    {item : UniverseItem} (hitem : u.itemAt ref = some item) :
    NoForeign (u.update ref fun item => { item with pkg := asLocalFile item.pkg }) ↔
      (item.pkg.type = .remote → isPkgItself item.pkg.name = false) := by
  have hforeign : nextbsdForeignPkg (asLocalFile item.pkg) = false ↔
      (item.pkg.type = .remote → isPkgItself item.pkg.name = false) := by
    rw [nextbsdForeignPkg, asLocalFile, nextbsdPkgRepo]
    cases isPkgItself item.pkg.name <;> simp
  constructor
  · intro h
    refine hforeign.mp (h ref { item with pkg := asLocalFile item.pkg } ?_)
    rw [itemAt_update, hitem, Option.map_some, if_pos rfl]
  · intro h r new hnew
    rw [itemAt_update] at hnew
    obtain ⟨old, hold, rfl⟩ := Option.map_eq_some_iff.mp hnew
    by_cases hr : r = ref
    · rw [if_pos hr]
      rw [hr, hitem] at hold
      cases hold
      exact hforeign.mpr h
    · rw [if_neg hr]
      exact hu r old hold

theorem fromNextBSD_iff {u : JobsUniverse} {source : Option ItemRef} {fromFile : Bool}
    {archive : Pkg} :
    FromNextBSD u (.install source fromFile archive) ↔
      ∀ p, sourcePkg u source fromFile = some p → p.type = .remote →
        isPkgItself archive.name = true → p.reponame = some nextbsdPkgRepo := by
  show (_ → _ → _) ↔ _
  rw [nextbsdCheckOrigin_ok]
  constructor
  · intro h p hp hremote hname
    have hrepo : nextbsdFromRepo (sourcePkg u source fromFile) = true := by
      rw [hp, nextbsdFromRepo_some, decide_eq_true hremote]
    rcases h (fun _ hno => by rw [hrepo] at hno; cases hno) hname with h | h
    · obtain ⟨ref, item, -, -, hsource, -, hname⟩ := h
      rw [hp] at hsource
      cases hsource
      exact hname
    · rw [hrepo] at h
      cases h.1
  · intro h hcheck hname
    cases hrepo : nextbsdFromRepo (sourcePkg u source fromFile) with
    | false => exact Or.inr ⟨rfl, hcheck hname hrepo⟩
    | true =>
      left
      cases hsource : sourcePkg u source fromFile with
      | none =>
        rw [hsource] at hrepo
        cases hrepo
      | some p =>
        rw [hsource, nextbsdFromRepo_some, decide_eq_true_eq] at hrepo
        have hreponame := h p hsource hrepo hname
        obtain ⟨item, hitem, hp⟩ := Option.map_eq_some_iff.mp hsource
        obtain ⟨ref, href, hat⟩ := Option.bind_eq_some_iff.mp hitem
        cases fromFile with
        | true =>
          -- a local file is not from NextBSD
          rw [← hp] at hreponame
          simp [asLocalFile, nextbsdPkgRepo] at hreponame
        | false =>
          have hp : item.pkg = p := hp
          rw [← hp] at hrepo hreponame
          exact ⟨ref, item, href, hat, by rw [hp], hrepo, hreponame⟩

/-- One move: the property holds of it and of the universe after it exactly if the patch
is sufficient for it. -/
theorem Move.provenance_iff {u u' : JobsUniverse} {m : Move} (hu : NoForeign u)
    (allowed : m.Allowed u) (next : m.next u = some u') :
    (FromNextBSD u m ∧ NoForeign u') ↔ Sufficient u m := by
  cases m with
  | process env fuel pkg =>
    have hpkg : nextbsdForeignPkg pkg = false := by
      rcases allowed with ⟨ref, item, hitem, rfl⟩ | htype
      · exact hu ref item hitem
      · exact foreign_of_type htype
    have hu' := noForeign_of_moves (processItem_moves fuel hpkg) hu next
    exact iff_of_true ⟨trivial, hu'⟩ trivial
  | add env pkg =>
    have hu' := noForeign_of_moves (addPkg_moves (foreign_of_type allowed)) hu next
    exact iff_of_true ⟨trivial, hu'⟩ trivial
  | load env uid =>
    have hload : Moves (getLocal env uid) (FilteredSteps env) := getLocal_moves uid
    have hu' := noForeign_of_moves hload hu next
    exact iff_of_true ⟨trivial, hu'⟩ trivial
  | candidates env uid lp force version =>
    have hlp (p : Pkg) (hp : lp = some p) : nextbsdForeignPkg p = false :=
      foreign_of_type (allowed p hp)
    have hu' := noForeign_of_moves (getUpgradeCandidates_moves hlp) hu next
    exact iff_of_true ⟨trivial, hu'⟩ trivial
  | install source fromFile archive =>
    have hinstall : Sufficient u (.install source fromFile archive) ↔
        FromNextBSD u (.install source fromFile archive) ∧
          ∀ p, sourcePkg u source fromFile = some p → p.type = .remote → fromFile = true →
            isPkgItself p.name = false := by
      rw [fromNextBSD_iff]
      constructor
      · intro h
        exact ⟨fun p hp hremote => (h p hp hremote).1, fun p hp hremote => (h p hp hremote).2⟩
      · intro h p hp hremote
        exact ⟨h.1 p hp hremote, h.2 p hp hremote⟩
    rw [hinstall]
    refine and_congr_right fun _ => ?_
    cases source with
    | none =>
      cases next
      refine iff_of_true hu fun p hp => ?_
      cases hp
    | some ref =>
      obtain ⟨item, hitem⟩ := Option.isSome_iff_exists.mp (allowed ref rfl)
      cases fromFile with
      | false =>
        cases next
        exact iff_of_true hu fun _ _ _ hfile => by cases hfile
      | true =>
        cases next
        rw [noForeign_rename hu hitem]
        have hsource : sourcePkg u (some ref) true = some (asLocalFile item.pkg) := by
          show (Option.map _ (u.itemAt ref)) = _
          rw [hitem]
          rfl
        constructor
        · intro h p hp hremote _
          rw [hsource] at hp
          cases hp
          exact h hremote
        · intro h hremote
          exact h (asLocalFile item.pkg) hsource hremote rfl

def pkgFrom (reponame : String) : Pkg :=
  { type := .remote, name := "pkg", uid := "pkg", version := "2", digest := some "p"
    reponame := some reponame }

def pkgEnv : UniverseEnv :=
  { type := .install
    query := fun _ => some []
    repoQuery := fun _ => some [pkgFrom "FreeBSD", pkgFrom nextbsdPkgRepo] }

def pkgUniverse : JobsUniverse :=
  { items := [("pkg", [{ pkg := pkgFrom nextbsdPkgRepo }])], seen := [("p", "pkg")] }

def pkgRun : List (JobsUniverse × Move) :=
  [(({} : JobsUniverse), .candidates pkgEnv "pkg" none false none),
    (pkgUniverse, .install (some { uid := "pkg", place := 0 }) false (pkgFrom nextbsdPkgRepo))]

theorem jobRun_pkg : JobRun pkgRun pkgUniverse := by
  have hbuild : JobRun [(({} : JobsUniverse), .candidates pkgEnv "pkg" none false none)]
      pkgUniverse := JobRun.step .start (fun p hp => by cases hp) rfl
  exact hbuild.step (fun ref href => by cases href; rfl) rfl

def disguisedPkg : Pkg :=
  { type := .remote, name := "foo", uid := "foo", version := "1", digest := some "d"
    reponame := some "Evil" }

def disguisedEnv : UniverseEnv :=
  { type := .install
    query := fun _ => some []
    repoQuery := fun _ => some [disguisedPkg] }

def disguisedArchive : Pkg := { type := .file, name := "pkg", uid := "pkg", version := "99" }

def disguisedUniverse : JobsUniverse :=
  { items := [("foo", [{ pkg := disguisedPkg }])], seen := [("d", "foo")] }

def disguisedRun : List (JobsUniverse × Move) :=
  [(({} : JobsUniverse), .candidates disguisedEnv "foo" none false none),
    (disguisedUniverse, .install (some { uid := "foo", place := 0 }) false disguisedArchive)]

theorem jobRun_disguised : JobRun disguisedRun disguisedUniverse := by
  have hbuild : JobRun [(({} : JobsUniverse), .candidates disguisedEnv "foo" none false none)]
      disguisedUniverse := JobRun.step .start (fun p hp => by cases hp) rfl
  exact hbuild.step (fun ref href => by cases href; rfl) rfl

end NextBSD.Libpkg
