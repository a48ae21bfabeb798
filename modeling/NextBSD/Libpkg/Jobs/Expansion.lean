import NextBSD.Libpkg.Jobs.Steps

/-!
# Processing is a sequence of steps

For each function of the recursion, what it guarantees if the recursive call does.  The
intermediate conditions say why each package that is processed is admitted: an installed
package comes first, so whatever follows it is anchored.
-/

namespace NextBSD.Libpkg

open Program

section
variable (env : UniverseEnv) (Given : Pkg → Prop)

/-- What a call of `addPkg` leaves. -/
structure Added (p : Pkg) (r : AddResult) (u : JobsUniverse) : Prop where
  pkg : r.pkg = pkgValidate env p
  notFound : r.found = none → r.rc ≠ .ok
  present : r.found ≠ none → Present u r.pkg

theorem addPkg_guarantees (p : Pkg) :
    Guarantees (fun u => Admitted env Given u p) (addPkg env p) (UniverseSteps env Given)
      (Added env p) := by
  rw [addPkg]
  cases hdigest : (pkgValidate env p).digest with
  | none =>
    simp only
    exact guarantees_pure fun u _ => ⟨rfl, fun _ => by simp, fun h => absurd rfl h⟩
  | some digest =>
    simp only
    refine guarantees_get.bind fun u => ?_
    cases hsame : u.findSame (pkgValidate env p) digest with
    | some ref =>
      refine guarantees_pure fun s hs => ⟨rfl, fun h => by simp at h, fun _ => ?_⟩
      rw [← hs.1]
      obtain ⟨item, hitem, hpkg⟩ := findSame_spec hsame
      simp only [samePackage, Bool.and_eq_true, decide_eq_true_eq] at hpkg
      exact ⟨ref, item, hitem, hpkg.1.1, hpkg.1.2, by rw [hdigest]; simp⟩
    | none =>
      by_cases hlocked : (pkgValidate env p).locked = true
      · simp only [if_pos hlocked]
        exact guarantees_pure fun u _ => ⟨rfl, fun _ => by simp, fun h => absurd rfl h⟩
      · simp only [if_neg hlocked]
        have hbasic := basic_pkgValidate env p
        have hunlocked : p.locked = false := by
          have hfield : (pkgValidate env p).basic.locked = p.basic.locked := by rw [hbasic]
          rw [← show (pkgValidate env p).locked = p.locked from hfield]
          simpa using hlocked
        refine Guarantees.bind
          (Q := fun _ s => s = u.push (pkgValidate env p) digest)
          (guarantees_modify fun s hs => ?_) fun _ => guarantees_pure fun s hs =>
            ⟨rfl, fun h => by simp at h, fun _ => ?_⟩
        · obtain ⟨rfl, hadmitted⟩ := hs
          exact ⟨Relation.ReflTransGen.single (.push hadmitted hdigest hsame hunlocked), rfl⟩
        · rw [hs]
          exact ⟨_, _, itemAt_push_self u _ digest, rfl, rfl, by rw [hdigest]; simp⟩

def Processes (process : Pkg → UniverseM AddResult) : Prop :=
  ∀ p, Guarantees (fun u => Admitted env Given u p) (process p) (UniverseSteps env Given)
    fun r u => r.pkg = pkgValidate env p ∧ (r.rc = .ok → Present u r.pkg)

variable {env Given}

theorem emit_moves (e : Emitted) : Moves (emit e) (UniverseSteps env Given) :=
  moves_modify fun _ => Relation.ReflTransGen.single (.other rfl rfl)

theorem askUpgrade_moves (rp lp : Pkg) :
    Moves (askUpgrade env rp lp) (UniverseSteps env Given) := by
  rw [askUpgrade]
  split
  · exact (emit_moves _).bind fun _ => moves_pure
  · exact moves_pure

/-- Without an installed package in the chain, the row of the database is taken and the
universe stays as it is. -/
theorem getLocal_of_absent {u : JobsUniverse} {uid : String}
    (h : (u.find uid).bind localItem = none) :
    (getLocal env uid).run u = some (env.localPkg uid, u) := by
  rw [getLocal]
  simp [h]

theorem getLocal_moves (uid : String) : Moves (getLocal env uid) (UniverseSteps env Given) := by
  rw [getLocal]
  refine moves_get_bind fun u => ?_
  split
  · exact (moves_modify fun u => Relation.ReflTransGen.single (.load _)).bind fun _ => moves_pure
  · exact moves_pure

theorem mem_appendPkgIfNewer {pkgs : List Pkg} {p q : Pkg} (h : q ∈ appendPkgIfNewer pkgs p) :
    q = p ∨ q ∈ pkgs := by
  induction pkgs with
  | nil => exact Or.inl (by simpa [appendPkgIfNewer] using h)
  | cons r pkgs ih =>
    rw [appendPkgIfNewer] at h
    split at h
    · split at h <;> simp only [List.mem_cons] at h ⊢ <;> tauto
    · split at h
      · simpa only [List.mem_cons] using h
      · rcases List.mem_cons.mp h with rfl | h
        · exact Or.inr List.mem_cons_self
        · rcases ih h with h | h
          · exact Or.inl h
          · exact Or.inr (List.mem_cons_of_mem _ h)

theorem mem_foldl_appendPkgIfNewer {rows pkgs : List Pkg} {q : Pkg}
    (h : q ∈ rows.foldl appendPkgIfNewer pkgs) : q ∈ rows ∨ q ∈ pkgs := by
  induction rows generalizing pkgs with
  | nil => exact Or.inr h
  | cons row rows ih =>
    rcases ih h with h | h
    · exact Or.inl (List.mem_cons_of_mem _ h)
    · rcases mem_appendPkgIfNewer h with rfl | h
      · exact Or.inl List.mem_cons_self
      · exact Or.inr h

theorem type_remoteRow (p : Pkg) : (remoteRow p).type ≠ .installed := by
  rw [remoteRow]
  split <;> simp

theorem getRemote_guarantees (uid : String) {P : JobsUniverse → Prop} :
    Guarantees P (getRemote env uid) (UniverseSteps env Given)
      fun rpkgs u => (∀ p ∈ rpkgs, RemotePkg env uid p) ∧ P u := by
  rw [getRemote]
  refine guarantees_get.bind fun u => ?_
  split
  · exact guarantees_pure fun s hs => ⟨fun p hp => by simp at hp, hs.2⟩
  · refine guarantees_pure fun s hs => ⟨fun p hp => ?_, hs.2⟩
    have hmem : p ∈ (((env.repoQuery uid).getD []).map remoteRow).filter
        fun pkg => !nextbsdForeignPkg pkg := by
      rcases mem_foldl_appendPkgIfNewer hp with h | h
      · exact h
      · simp at h
    simp only [List.mem_filter, List.mem_map, Bool.not_eq_true'] at hmem
    obtain ⟨⟨row, hrow, rfl⟩, hforeign⟩ := hmem
    exact ⟨type_remoteRow row, hforeign, Or.inr ⟨row, hrow, rfl⟩⟩

theorem mem_candidatesFor {pkg q : Pkg} {rpkgs : List Pkg} (h : q ∈ candidatesFor pkg rpkgs) :
    q ∈ rpkgs := by
  rw [candidatesFor] at h
  split at h
  · rename_i rpkg hfind
    rw [List.mem_singleton.mp h]
    exact List.mem_reverse.mp (List.mem_of_find?_eq_some hfind)
  · exact List.mem_reverse.mp h

section
variable {process : Pkg → UniverseM AddResult} (h : Processes env Given process)
include h

theorem Processes.call {p : Pkg} {P : JobsUniverse → Prop}
    (hadmitted : ∀ u, P u → Admitted env Given u p) :
    Guarantees P (process p) (UniverseSteps env Given) fun r u =>
      r.pkg = pkgValidate env p ∧ (r.rc = .ok → Present u r.pkg) :=
  (h p).consequence hadmitted fun _ _ hq => hq

theorem processCandidate_guarantees {uid : String} {npkg : Option Pkg} {rpkg : Pkg}
    (hrow : RemotePkg env uid rpkg) :
    Guarantees (fun u => Anchored env u uid) (processCandidate env process npkg rpkg)
      (UniverseSteps env Given)
      (Outcome (fun _ _ => True) fun _ u => Anchored env u uid) := by
  have hkeep (u u' : JobsUniverse) (hsteps : UniverseSteps env Given u u')
      (ha : Anchored env u uid) : Anchored env u' uid := hsteps.anchored ha
  cases npkg with
  | some npkg =>
    refine Guarantees.bind ((@askUpgrade_moves env Given rpkg npkg).keeps hkeep) fun b => ?_
    have hrow' : RemotePkg env uid { rpkg with automatic := npkg.automatic } :=
      ⟨hrow.remote, hrow.notForeign, hrow.uid⟩
    have hcall := (h.call (P := fun u => Anchored env u uid) fun u hu =>
      Admitted.remote hrow' hu).frame hkeep
    split
    · refine Guarantees.bind (hcall.consequence (fun u hu => ⟨hu, hu⟩) fun _ _ hq => hq)
        fun r => guarantees_pure fun u hu => hu.2
    · exact guarantees_pure fun u hu => hu
  | none =>
    have hcall := (h.call (P := fun u => Anchored env u uid) fun u hu =>
      Admitted.remote hrow hu).frame hkeep
    refine Guarantees.bind (hcall.consequence (fun u hu => ⟨hu, hu⟩) fun _ _ hq => hq)
      fun r => guarantees_pure fun u hu => ?_
    split
    · exact hu.2
    · exact trivial

theorem processCandidates_guarantees {uid : String} {npkg : Option Pkg} {pkg : Pkg}
    {rpkgs : List Pkg} (hrows : ∀ p ∈ rpkgs, RemotePkg env uid p) :
    Guarantees (fun u => Anchored env u uid)
      (foldUntil (fun _ => processCandidate env process npkg) () (candidatesFor pkg rpkgs))
      (UniverseSteps env Given) fun _ _ => True := by
  refine (guarantees_foldUntil (E := fun _ _ => True) (J := fun _ u => Anchored env u uid)
    (fun _ rpkg hmem => ?_) ()).consequence (fun _ hu => hu) fun _ _ _ => trivial
  exact processCandidate_guarantees h (hrows rpkg (mem_candidatesFor hmem))

theorem processDep_moves {flags : DepsFlags} (hmirror : flags.mirror = true → env.type = .fetch)
    (pkg : Pkg) (d : PkgDep) :
    Moves (processDep env process flags pkg d) (UniverseSteps env Given) := by
  rw [processDep]
  refine guarantees_get.bind fun u => ?_
  split
  · exact guarantees_pure fun _ _ => trivial
  · rename_i hfind
    have habsent : (u.find d.uid).bind localItem = none := by
      cases hu : u.find d.uid with
      | none => rfl
      | some chain => rw [hu] at hfind; simp at hfind
    -- the installed package, and why the remote ones come after it
    refine Guarantees.bind (Q := fun npkg s => s = u ∧
      (npkg = env.localPkg d.uid ∨ npkg = none ∧ env.type = .fetch)) ?_ fun npkg => ?_
    · rw [localDependency]
      split
      · rename_i hm
        exact guarantees_pure fun s hs => ⟨hs.1.symm, Or.inr ⟨rfl, hmirror hm⟩⟩
      · intro s npkg s' hs hrun
        rw [← hs.1, getLocal_of_absent habsent] at hrun
        cases hrun
        rw [← hs.1]
        exact ⟨Relation.ReflTransGen.refl, rfl, Or.inl rfl⟩
    · refine Guarantees.bind (Q := fun rpkgs s => (∀ p ∈ rpkgs, RemotePkg env d.uid p) ∧
        (npkg = env.localPkg d.uid ∨ npkg = none ∧ env.type = .fetch)) ?_ fun rpkgs => ?_
      · rw [remoteDependencies]
        split
        · exact guarantees_pure fun s hs => ⟨fun p hp => by simp at hp, hs.2⟩
        · exact (getRemote_guarantees d.uid).consequence (fun _ hs => hs) fun _ _ hq => ⟨hq.1, hq.2.2⟩
      · refine guarantees_assume fun hrows => ?_
        cases npkg with
        | none =>
          simp only
          split
          · exact ((emit_moves _).bind fun _ => moves_pure).guarantees
          · refine (processCandidates_guarantees h hrows).consequence (fun u hu => ?_) fun _ _ hq => hq
            rcases hu with hnone | ⟨-, hfetch⟩
            · exact Or.inr (Or.inl hnone.symm)
            · exact Or.inl hfetch
        | some npkg =>
          have hcall := h.call (P := fun _ => env.localPkg d.uid = some npkg) fun _ hlocal =>
            Admitted.installed hlocal
          refine Guarantees.bind ((hcall.frame (F := fun _ => env.localPkg d.uid = some npkg)
            fun _ _ _ hlocal => hlocal).consequence (fun u hu => ?_) fun _ _ hq => hq) fun n => ?_
          · have hlocal : env.localPkg d.uid = some npkg := by
              rcases hu with hsome | ⟨hnone, -⟩
              · exact hsome.symm
              · cases hnone
            exact ⟨hlocal, hlocal⟩
          · split
            · exact guarantees_pure fun _ _ => trivial
            · rename_i hrc
              refine (processCandidates_guarantees h hrows).consequence (fun u hu => ?_)
                fun _ _ hq => hq
              have hpresent : Present u n.pkg := hu.1.2 (by simpa using hrc)
              rw [hu.1.1] at hpresent
              exact Or.inr (Or.inr (Or.inr ⟨npkg, hu.2, hpresent⟩))

theorem processDeps_moves {flags : DepsFlags} (hmirror : flags.mirror = true → env.type = .fetch)
    (pkg : Pkg) : Moves (processDeps env process flags pkg) (UniverseSteps env Given) := by
  have hdependent : Moves (dependent env flags pkg) (UniverseSteps env Given) := by
    rw [dependent]
    split
    · exact (getLocal_moves _).bind fun _ => moves_pure
    · exact moves_pure
  rw [processDeps]
  refine hdependent.bind fun pkg => Moves.bind ?_ fun _ => moves_pure
  exact moves_foldUntil (fun _ d _ => processDep_moves h hmirror pkg d) ()

/-! ### Providers -/

omit h in
theorem pushProvide_moves (name : String) (isShlib : Bool) (provvec : Provvec) (un : ItemRef) :
    Moves (pushProvide name isShlib provvec un) (UniverseSteps env Given) := by
  rw [pushProvide]
  refine moves_get_bind fun u => ?_
  split
  · exact moves_pure
  · exact moves_pure
  · exact (moves_modify fun u => Relation.ReflTransGen.single (.other rfl rfl)).bind fun _ => moves_pure

theorem processProvider_guarantees {name : String} {isShlib : Bool} {provvec : Provvec}
    {rpkg : Pkg} {failed : Epkg → Except Epkg Provvec} {P : JobsUniverse → Prop}
    (hadmitted : ∀ u, P u → Admitted env Given u rpkg) :
    Guarantees P (processProvider process name isShlib provvec rpkg failed)
      (UniverseSteps env Given) fun _ _ => True := by
  rw [processProvider]
  refine (h.call hadmitted).bind fun r => Moves.guarantees ?_
  split
  · exact moves_pure
  · split
    · exact (pushProvide_moves name isShlib provvec _).bind fun _ => moves_pure
    · exact guarantees_failure

def ProviderRow (env : UniverseEnv) (p : Pkg) : Prop := RemotePkg env p.uid p ∨ ProviderPkg env p

theorem handleProvideRow_moves {name : String} {isShlib : Bool} {provvec : Provvec} {rpkg : Pkg}
    (hrow : nextbsdForeignPkg rpkg = false → ProviderRow env rpkg) :
    Moves (handleProvideRow env process name isShlib provvec rpkg) (UniverseSteps env Given) := by
  have hpush (provvec : Provvec) (un : ItemRef) : Moves (do
      let v ← pushProvide name isShlib provvec un
      pure (Except.ok v : Except Epkg Provvec)) (UniverseSteps env Given) :=
    (pushProvide_moves name isShlib provvec un).bind fun _ => moves_pure
  rw [handleProvideRow]
  simp only
  split
  · exact moves_pure
  · rename_i hforeign
    have hrow := hrow (by simpa using hforeign)
    refine guarantees_get.bind fun u => ?_
    cases hhead : (u.find rpkg.uid).bind List.head? with
    | some unit =>
      simp only
      split
      · exact (hpush _ _).guarantees
      · rename_i hskip
        refine processProvider_guarantees h fun s hs => ?_
        rw [← hs.1]
        rcases hrow with hremote | hprovider
        · refine Admitted.remote hremote (Or.inr (Or.inr (Or.inl ?_)))
          cases hfind : u.find rpkg.uid with
          | none => rw [hfind] at hhead; cases hhead
          | some chain => rfl
        · exact Admitted.provider hprovider (Or.inl ⟨unit, hhead, by simpa using hskip⟩)
    | none =>
      simp only
      have habsent : (u.find rpkg.uid).bind localItem = none := by
        cases hfind : u.find rpkg.uid with
        | none => rfl
        | some chain =>
          rw [hfind] at hhead
          cases chain with
          | nil => rfl
          | cons unit chain => cases hhead
      refine Guarantees.bind (Q := fun npkg _ => npkg = env.localPkg rpkg.uid ∧ True) ?_
        fun npkg => ?_
      · intro s npkg s' hs hrun
        rw [← hs.1, getLocal_of_absent habsent] at hrun
        cases hrun
        rw [← hs.1]
        exact ⟨Relation.ReflTransGen.refl, rfl, trivial⟩
      · refine guarantees_assume fun hlocal => ?_
        cases npkg with
        | some npkg =>
          simp only
          have hcall := h.call (P := fun _ => True) fun _ _ => Admitted.installed hlocal.symm
          refine hcall.bind fun n => ?_
          split
          · exact moves_pure.guarantees
          · rename_i hrc
            split
            · split
              · exact (hpush _ _).guarantees
              · exact guarantees_failure
            · rename_i hskip
              refine processProvider_guarantees h fun s hs => ?_
              have hpresent : Present s n.pkg := hs.2 (by simpa using hrc)
              rw [hs.1] at hskip hpresent
              rcases hrow with hremote | hprovider
              · exact Admitted.remote hremote
                  (Or.inr (Or.inr (Or.inr ⟨npkg, hlocal.symm, hpresent⟩)))
              · exact Admitted.provider hprovider
                  (Or.inr (Or.inl ⟨npkg, hlocal.symm, by simpa using hskip⟩))
        | none =>
          simp only
          split
          · exact moves_pure
          · refine processProvider_guarantees h fun s _ => ?_
            rcases hrow with hremote | hprovider
            · exact @Admitted.remote env Given s rpkg.uid _
                ⟨hremote.remote, hremote.notForeign, Or.inl rfl⟩ (Or.inr (Or.inl hlocal.symm))
            · refine Admitted.provider (hprovider.digest _) (Or.inr (Or.inr hlocal.symm))

theorem handleProvideIt_moves {name : String} {isShlib : Bool} {it : Option (List Pkg)}
    (hrows : ∀ rows, it = some rows → ∀ p ∈ rows, nextbsdForeignPkg p = false → ProviderRow env p) :
    Moves (handleProvideIt env process name isShlib it) (UniverseSteps env Given) := by
  cases it with
  | none => exact moves_pure
  | some rows =>
    show Moves (handleProvide env process name isShlib rows) _
    rw [handleProvide]
    refine moves_get_bind fun u => Moves.bind ?_ fun r => ?_
    · exact moves_foldUntil (fun _ p hp => handleProvideRow_moves h (hrows rows rfl p hp)) _
    · split <;> exact moves_pure

omit h in
theorem providerRows_remote {it : Option (List Pkg)} {rows : List Pkg}
    (hit : (it.map fun l => l.map remoteRow) = some rows) :
    ∀ p ∈ rows, nextbsdForeignPkg p = false → ProviderRow env p := by
  intro p hp hforeign
  obtain ⟨l, -, rfl⟩ := Option.map_eq_some_iff.mp hit
  obtain ⟨row, -, rfl⟩ := List.mem_map.mp hp
  exact Or.inl ⟨type_remoteRow row, hforeign, Or.inl rfl⟩

omit h in
theorem providerRows_local (name : String) (isShlib : Bool) {rows : List Pkg}
    (hit : ((if isShlib then env.queryShlibProvide name else env.queryProvide name).map
      fun l => l.map (providerRow isShlib)) = some rows) :
    ∀ p ∈ rows, nextbsdForeignPkg p = false → ProviderRow env p := by
  intro p hp _
  obtain ⟨l, hl, rfl⟩ := Option.map_eq_some_iff.mp hit
  obtain ⟨row, hrow, rfl⟩ := List.mem_map.mp hp
  refine Or.inr ⟨name, isShlib, (providerRow isShlib row).digest, row, ?_, rfl⟩
  rw [hl]
  exact hrow

theorem processShlibs_moves (pkg : Pkg) :
    Moves (processShlibs env process pkg) (UniverseSteps env Given) := by
  rw [processShlibs]
  refine Moves.bind (moves_foldUntil (fun _ s _ => ?_) ()) fun _ => moves_pure
  rw [processShlib]
  split
  · exact moves_pure
  · refine moves_get_bind fun u => ?_
    split
    · exact moves_pure
    · refine Moves.bind (handleProvideIt_moves h fun _ => providerRows_local s true) fun _ => ?_
      exact (handleProvideIt_moves h fun _ => providerRows_remote).bind fun _ => moves_pure

theorem processProvidesRequires_moves (pkg : Pkg) :
    Moves (processProvidesRequires env process pkg) (UniverseSteps env Given) := by
  rw [processProvidesRequires]
  refine Moves.bind (moves_foldUntil (fun _ r _ => ?_) ()) fun _ => moves_pure
  rw [processRequire]
  refine moves_get_bind fun u => ?_
  split
  · exact moves_pure
  · refine Moves.bind (handleProvideIt_moves h fun _ => providerRows_local r false) fun _ => ?_
    exact (handleProvideIt_moves h fun _ => providerRows_remote).bind fun _ => moves_pure

theorem processRelations_moves {flags : DepsFlags}
    (hmirror : flags.mirror = true → env.type = .fetch) {read : UniverseM Pkg}
    (hread : Moves read (UniverseSteps env Given)) :
    Moves (processRelations env process flags read) (UniverseSteps env Given) := by
  rw [processRelations]
  refine hread.bind fun p => (processDeps_moves h hmirror p).bind fun rc => ?_
  split
  · exact moves_pure
  · refine hread.bind fun p => (processShlibs_moves h p).bind fun rc => ?_
    split
    · exact moves_pure
    · exact hread.bind fun p => processProvidesRequires_moves h p

theorem processReverse_moves {flags : DepsFlags}
    (hmirror : flags.mirror = true → env.type = .fetch) (pkg : Pkg) :
    Moves (processReverse env process flags pkg) (UniverseSteps env Given) := by
  have hdepth (f : Nat → Nat) : Moves
      (modify fun u => { u with rdepsDepth := f u.rdepsDepth } : UniverseM PUnit)
      (UniverseSteps env Given) :=
    moves_modify fun u => Relation.ReflTransGen.single (.other rfl rfl)
  rw [processReverse]
  have hdeps := processDeps_moves h
    (show ({ flags with reverse := true } : DepsFlags).mirror = true → env.type = .fetch from hmirror) pkg
  refine moves_get_bind fun u => ?_
  split
  · refine (hdepth (· + 1)).bind fun _ => hdeps.bind fun rc => ?_
    exact (hdepth (· - 1)).bind fun _ => moves_pure
  · exact moves_pure

theorem processBoth_moves {flags : DepsFlags}
    (hmirror : flags.mirror = true → env.type = .fetch) {read : UniverseM Pkg}
    (hread : Moves read (UniverseSteps env Given)) :
    Moves (processBoth env process flags read) (UniverseSteps env Given) := by
  rw [processBoth]
  refine hread.bind fun p => (processDeps_moves h hmirror p).bind fun rc => ?_
  split
  · exact moves_pure
  · refine hread.bind fun p => (processReverse_moves h hmirror p).bind fun rc => ?_
    split
    · exact moves_pure
    · refine hread.bind fun p => (processShlibs_moves h p).bind fun rc => ?_
      split
      · exact moves_pure
      · exact hread.bind fun p => processProvidesRequires_moves h p

theorem processByType_moves (rc : Epkg) {read : UniverseM Pkg}
    (hread : Moves read (UniverseSteps env Given)) :
    Moves (processByType env process rc read) (UniverseSteps env Given) := by
  rw [processByType]
  cases htype : env.type with
  | fetch =>
    simp only
    split
    · exact hread.bind fun p => processDeps_moves h (fun _ => htype) p
    · exact moves_pure
  | install => exact processBoth_moves h (fun hm => by cases hm) hread
  | upgrade => exact processBoth_moves h (fun hm => by cases hm) hread
  | autoremove => exact processRelations_moves h (fun hm => by cases hm) hread
  | deinstall =>
    simp only
    split
    · exact processRelations_moves h (fun hm => by cases hm) hread
    · exact moves_pure

end

theorem readPkg_moves (added : AddResult) : Moves (readPkg added) (UniverseSteps env Given) := by
  rw [readPkg]
  refine moves_get_bind fun u => ?_
  split <;> exact moves_pure

theorem processItem_guarantees (fuel : Nat) : Processes env Given (processItem env fuel) := by
  induction fuel with
  | zero => exact fun p => guarantees_failure
  | succ fuel ih =>
    intro p
    rw [processItem]
    refine (addPkg_guarantees env Given p).bind fun added => ?_
    cases hfound : added.found with
    | none =>
      refine guarantees_pure fun u hu => ⟨hu.pkg, fun hok => ?_⟩
      exact absurd hok (hu.notFound hfound)
    | some ref =>
      have hkeep (u u' : JobsUniverse) (hsteps : UniverseSteps env Given u u')
          (hp : Present u added.pkg) : Present u' added.pkg := hsteps.present hp
      simp only
      refine Guarantees.consequence (P := fun u => added.pkg = pkgValidate env p ∧
        Present u added.pkg) ?_ (fun u hu => ⟨hu.pkg, hu.present (by rw [hfound]; simp)⟩)
        fun _ _ hq => hq
      refine guarantees_assume fun hpkg => guarantees_get.bind fun u => ?_
      split
      · exact guarantees_pure fun s hs => ⟨hpkg, fun _ => hs.2⟩
      · have hmark : Moves (modify fun u => u.update ref fun item => { item with processed := true } :
            UniverseM PUnit) (UniverseSteps env Given) :=
          moves_modify fun u => Relation.ReflTransGen.single (.mark ref)
        have htype := processByType_moves ih added.rc (readPkg_moves added)
        refine Guarantees.bind ((hmark.keeps hkeep).consequence (fun s hs => hs.2) fun _ _ hq => hq)
          fun _ => (htype.keeps hkeep).bind fun rc => guarantees_pure fun s hs => ⟨hpkg, fun _ => hs⟩

end

end NextBSD.Libpkg
