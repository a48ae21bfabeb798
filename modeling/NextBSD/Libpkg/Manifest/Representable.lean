import NextBSD.Libpkg.Manifest.RoundTrip
import Mathlib.Algebra.Order.BigOperators.Group.List

/-!
# The packages that come back from their manifests

`pkg_emit_object` encodes the paths of the configuration files, and `pkg_array` adds them as they
are, where `pkg_obj` decodes those of files and directories.  A package whose configuration files
need no encoding comes back, up to what a mode, a time and the names of the flags can hold.
-/

namespace NextBSD.Libpkg.Manifest

open SortedInsert Run

variable {sys : System}

theorem addConfigPath_perm {path : Bytes} (h : Canonical path) {l l' : List Bytes}
    (hadd : addConfigPath sys l path = .ok l') : l'.Perm (path :: l) := by
  have hsize : 1 < MAXPATHLEN := by
    show 1 < 1024
    omega
  unfold addConfigPath at hadd
  rw [pkgAbsolutepath_canonical sys hsize h] at hadd
  by_cases hfits : path.length < MAXPATHLEN
  · rw [if_pos hfits] at hadd
    dsimp only at hadd
    cases hins : insertSorted id l path with
    | none =>
      rw [hins] at hadd
      exact nomatch hadd
    | some l'' =>
      rw [hins] at hadd
      rw [← Except.ok.inj hadd]
      exact insertSorted_perm hins
  · rw [if_neg hfits] at hadd
    exact nomatch hadd

theorem foldlM_addConfigPath_perm {paths : List Bytes} (h : ∀ path ∈ paths, Canonical path)
    {l l' : List Bytes} (hrun : paths.foldlM (addConfigPath sys) l = .ok l') :
    l'.Perm (paths ++ l) := by
  induction paths generalizing l with
  | nil => rw [← Except.ok.inj hrun]; rfl
  | cons path paths ih =>
    rw [List.foldlM_cons] at hrun
    cases hadd : addConfigPath sys l path with
    | error e =>
      rw [hadd] at hrun
      exact nomatch hrun
    | ok l1 =>
      rw [hadd] at hrun
      have htail := ih (fun path hpath => h path (List.mem_cons_of_mem _ hpath)) hrun
      have hhead := addConfigPath_perm (h path List.mem_cons_self) hadd
      exact (htail.trans (List.Perm.append_left paths hhead)).trans List.perm_middle

theorem plain_of_readConfigFiles {paths : List Bytes} (h : ∀ path ∈ paths, Stored path)
    (hread : readConfigFiles sys paths = .ok paths) : ∀ path ∈ paths, path.all isPlain = true := by
  have hcanonical : ∀ path ∈ paths.map urlencode, Canonical path := by
    intro path hpath
    obtain ⟨path', hpath', rfl⟩ := List.mem_map.mp hpath
    exact (h path' hpath').canonical.urlencode
  have hperm := foldlM_addConfigPath_perm hcanonical hread
  rw [List.append_nil] at hperm
  -- the encoding shortens no path, so the total length is kept only if every length is
  have hsum : (paths.map List.length).sum =
      (paths.map (fun path => (urlencode path).length)).sum := by
    have hsame := (hperm.map List.length).sum_eq
    rw [List.map_map] at hsame
    exact hsame
  intro path hpath
  by_contra hplain
  have hlt := List.sum_lt_sum List.length (fun path => (urlencode path).length)
    (fun path _ => length_le_urlencode path) ⟨path, hpath, length_lt_urlencode hplain⟩
  exact Nat.ne_of_lt hlt hsum

theorem foldlM_addConfigPath_sorted {paths done : List Bytes} (h : ∀ path ∈ paths, Stored path)
    (hsorted : SortedInsert.Sorted id (done ++ paths)) :
    paths.foldlM (addConfigPath sys) done = .ok (done ++ paths) := by
  induction paths generalizing done with
  | nil =>
    rw [List.append_nil]
    rfl
  | cons path paths ih =>
    have habove : ∀ x ∈ done, id x < id path := fun x hx =>
      (List.pairwise_append.mp hsorted).2.2 x hx path List.mem_cons_self
    have hadd : addConfigPath sys done path = .ok (done ++ [path]) := by
      unfold addConfigPath
      rw [(h path List.mem_cons_self).pkgAbsolutepath]
      dsimp only
      rw [insertSorted_above habove]
    have happend : done ++ path :: paths = (done ++ [path]) ++ paths := by
      rw [List.append_assoc]
      rfl
    rw [List.foldlM_cons, hadd, happend]
    exact ih (fun path hpath => h path (List.mem_cons_of_mem _ hpath)) (happend ▸ hsorted)

theorem readConfigFiles_of_plain {paths : List Bytes} (h : ∀ path ∈ paths, Stored path)
    (hsorted : SortedInsert.Sorted id paths) (hplain : ∀ path ∈ paths, path.all isPlain = true) :
    readConfigFiles sys paths = .ok paths := by
  have hsame : paths.map urlencode = paths :=
    (List.map_congr_left (fun path hpath => urlencode_of_plain (hplain path hpath))).trans
      (List.map_id paths)
  unfold readConfigFiles
  rw [hsame]
  exact @foldlM_addConfigPath_sorted sys paths [] h hsorted

/-! ## The values -/

/-- A file with what stands for an owner, a group and a sum that are not set. -/
def setFile (file : File) : File :=
  { file with
    sum := some (file.sum.getD (ascii "-"))
    uname := some (file.uname.getD (ascii "root"))
    gname := some (file.gname.getD (ascii "wheel")) }

structure SameValues (pkg pkg' : Pkg) : Prop where
  desc : pkg'.strings .desc = pkg.strings .desc
  scripts : pkg'.scripts = pkg.scripts
  lists : pkg'.lists = pkg.lists
  depends : pkg'.depends = pkg.depends
  options : pkg'.options = pkg.options
  annotations : pkg'.annotations.filter (fun kv => !kv.internal) =
    pkg.annotations.filter (fun kv => !kv.internal)
  files : pkg'.files = pkg.files.map setFile
  configFiles : pkg'.configFiles = pkg.configFiles
  dirs : pkg'.dirs.map Dir.path = pkg.dirs.map Dir.path

def RoundTrips (sys : System) (flags : EmitFlags) (pkg : Pkg) : Prop :=
  ∃ obj pkg', pkgEmitObject sys flags pkg = some obj ∧
    pkgParseManifestUcl sys fresh obj = .ok pkg' ∧ SameValues pkg pkg'

def FlagsNamed (sys : System) (fflags : Nat) : Prop :=
  fflags = 0 ∨ ∃ s, s ≠ [] ∧ sys.fflagstostr fflags = some s ∧ sys.strtofflags s = some (fflags, 0)

/-- What a manifest can hold of a file: a mode of twelve bits, a time that is not negative, and
flags with names. -/
structure FileHeld (sys : System) (file : File) : Prop where
  perm : file.perm < 4096
  mtime : 0 ≤ file.mtime
  fflags : FlagsNamed sys file.fflags

structure Representable (sys : System) (pkg : Pkg) : Prop where
  abi : (pkg.strings .abi).isSome ∨ (pkg.strings .altabi).isSome
  configFiles : ∀ path ∈ pkg.configFiles, path.all isPlain = true
  files : ∀ file ∈ pkg.files, FileHeld sys file
  depends : sys.noVersionForDeps = false ∨ pkg.depends = []

theorem shownFflags_eq_iff {fflags : Nat} :
    shownFflags sys fflags = fflags ↔ FlagsNamed sys fflags := by
  unfold shownFflags FlagsNamed
  by_cases hzero : fflags = 0
  · rw [if_pos hzero]
    exact ⟨fun _ => Or.inl hzero, fun _ => hzero.symm⟩
  rw [if_neg hzero]
  cases hstr : sys.fflagstostr fflags with
  | none =>
    constructor
    · intro h
      exact absurd h.symm hzero
    · rintro (h | ⟨s, -, h, -⟩)
      · exact absurd h hzero
      · exact nomatch h
  | some s =>
    by_cases hs : s = []
    · subst hs
      constructor
      · intro h
        exact absurd h.symm hzero
      · rintro (h | ⟨s, hs, h, -⟩)
        · exact absurd h hzero
        · exact absurd (Option.some.inj h).symm hs
    · have hnonempty : nonempty (some s) = some s := Option.filter_some_pos (decide_eq_true hs)
      rw [hnonempty]
      show readFflags sys (.string s) = fflags ↔ _
      unfold readFflags
      dsimp only
      constructor
      · intro h
        refine Or.inr ⟨s, hs, rfl, ?_⟩
        split at h
        · next set hset => rw [hset, h]
        · exact absurd h.symm hzero
      · rintro (h | ⟨s', -, hs', hset⟩)
        · exact absurd h hzero
        · rw [Option.some.inj hs', hset]
          rfl

theorem shownFile_eq_iff {file : File} : shownFile sys file = setFile file ↔ FileHeld sys file := by
  unfold shownFile setFile
  constructor
  · intro h
    have hperm : shownPerm file.perm = file.perm := congrArg File.perm h
    have hfflags : shownFflags sys file.fflags = file.fflags := congrArg File.fflags h
    have hmtime : (if 0 < file.mtime then file.mtime else 0) = file.mtime := congrArg File.mtime h
    refine ⟨shownPerm_eq_iff.mp hperm, ?_, shownFflags_eq_iff.mp hfflags⟩
    split_ifs at hmtime <;> omega
  · intro h
    have hmtime : (if 0 < file.mtime then file.mtime else 0) = file.mtime := by
      have := h.mtime
      split_ifs <;> omega
    rw [shownPerm_eq_iff.mpr h.perm, shownFflags_eq_iff.mpr h.fflags, hmtime]

theorem map_shownDep_eq_iff {depends : List Dep}
    (h : ∀ dep ∈ depends, ∃ version, dep.version = some version) :
    depends.map (shownDep sys) = depends ↔ sys.noVersionForDeps = false ∨ depends = [] := by
  cases hset : sys.noVersionForDeps with
  | false =>
    have hsame : depends.map (shownDep sys) = depends := by
      refine (List.map_congr_left (fun dep _ => ?_)).trans (List.map_id depends)
      unfold shownDep
      rw [hset]
      rfl
    exact ⟨fun _ => Or.inl rfl, fun _ => hsame⟩
  | true =>
    cases depends with
    | nil => exact ⟨fun _ => Or.inr rfl, fun _ => rfl⟩
    | cons dep depends =>
      constructor
      · intro hsame
        obtain ⟨version, hversion⟩ := h dep List.mem_cons_self
        have hdep : (shownDep sys dep).version = dep.version :=
          congrArg Dep.version (List.cons.inj hsame).1
        unfold shownDep at hdep
        rw [hset, hversion] at hdep
        exact nomatch hdep
      · rintro (h | h) <;> exact nomatch h

theorem readsNull_eq_false_iff {flags : EmitFlags} {pkg : Pkg} (h : pkg.oprefix = none) :
    readsNull flags pkg = false ↔
      (pkg.strings .abi).isSome ∨ (pkg.strings .altabi).isSome := by
  unfold readsNull
  rw [h]
  cases pkg.strings .abi with
  | some abi => exact ⟨fun _ => Or.inl rfl, fun _ => rfl⟩
  | none =>
    cases pkg.strings .altabi with
    | some altabi => exact ⟨fun _ => Or.inr rfl, fun _ => rfl⟩
    | none => exact ⟨nofun, fun h => h.elim nofun nofun⟩

theorem sameValues_iff {flags : EmitFlags} {pkg pkg' : Pkg} (h : WellFormed pkg)
    {configFiles : List Bytes} (hcore : pkg'.core = readBack sys flags pkg configFiles) :
    SameValues pkg pkg' ↔ configFiles = pkg.configFiles ∧
      (∀ file ∈ pkg.files, FileHeld sys file) ∧
      (sys.noVersionForDeps = false ∨ pkg.depends = []) := by
  have hversion : ∀ dep ∈ pkg.depends, ∃ version, dep.version = some version := fun dep hdep => by
    obtain ⟨-, -, version, hv, -⟩ := h.dep dep hdep
    exact ⟨version, hv⟩
  have hdepends : pkg'.depends = pkg.depends.map (shownDep sys) := congrArg Pkg.depends hcore
  have hfiles : pkg'.files = pkg.files.map (shownFile sys) := congrArg Pkg.files hcore
  have hconfig : pkg'.configFiles = configFiles := congrArg Pkg.configFiles hcore
  have hscripts := congrArg Pkg.scripts hcore
  have hlists := congrArg Pkg.lists hcore
  have hoptions := congrArg Pkg.options hcore
  constructor
  · intro hsame
    refine ⟨hconfig.symm.trans hsame.configFiles, fun file hfile => ?_, ?_⟩
    · have hmap := hfiles.symm.trans hsame.files
      exact shownFile_eq_iff.mp (List.map_inj_left.mp hmap file hfile)
    · exact (map_shownDep_eq_iff hversion).mp (hdepends.symm.trans hsame.depends)
  · rintro ⟨rfl, hheld, hdeps⟩
    refine
      { desc := ?_, scripts := hscripts, lists := hlists
        depends := hdepends.trans ((map_shownDep_eq_iff hversion).mpr hdeps)
        options := hoptions, annotations := ?_
        files := hfiles.trans
          (List.map_congr_left (fun file hfile => shownFile_eq_iff.mpr (hheld file hfile)))
        configFiles := hconfig, dirs := ?_ }
    · have hstrings : ∀ p : Pkg, p.core.strings .desc = p.strings .desc := fun p => by
        show Function.update fresh.strings .desc (p.strings .desc) .desc = _
        rw [Function.update_self]
      have hdesc := congrFun (congrArg Pkg.strings hcore) .desc
      rw [hstrings] at hdesc
      exact hdesc.trans (hstrings pkg)
    · have hannotations : pkg'.annotations =
          pkg.annotations.filter (fun kv => !kv.internal || flags.localMetadata) :=
        congrArg Pkg.annotations hcore
      rw [hannotations, List.filter_filter]
      refine List.filter_congr (fun kv _ => ?_)
      cases kv.internal <;> rfl
    · have hdirs : pkg'.dirs = pkg.dirs.map (shownDir sys) := congrArg Pkg.dirs hcore
      rw [hdirs, List.map_map]
      rfl

theorem pkgEmitObject_eq {flags : EmitFlags} {pkg : Pkg} {obj : Ucl}
    (hemit : pkgEmitObject sys flags pkg = some obj) :
    readsNull flags pkg = false ∧ obj = .object (emitEntries sys flags pkg
      (((pkg.strings .abi).orElse (fun _ => pkg.strings .altabi)).getD [])) := by
  unfold pkgEmitObject at hemit
  by_cases hnull : readsNull flags pkg = true
  · rw [if_pos hnull] at hemit
    exact nomatch hemit
  · rw [if_neg hnull] at hemit
    exact ⟨Bool.eq_false_iff.mpr hnull, (Option.some.inj hemit).symm⟩

theorem representable_of_roundTrips {flags : EmitFlags} {pkg : Pkg}
    (hcompact : flags.compact = false) (hnofiles : flags.nofiles = false) (h : WellFormed pkg)
    (htrip : RoundTrips sys flags pkg) : Representable sys pkg := by
  obtain ⟨obj, pkg', hemit, hparse, hsame⟩ := htrip
  obtain ⟨hnull, rfl⟩ := pkgEmitObject_eq hemit
  have hread := core_parse_emit sys h hcompact hnofiles
    (((pkg.strings .abi).orElse (fun _ => pkg.strings .altabi)).getD [])
  rw [hparse] at hread
  cases hconfig : readConfigFiles sys pkg.configFiles with
  | error e =>
    rw [hconfig] at hread
    exact nomatch hread
  | ok configFiles =>
    rw [hconfig] at hread
    obtain ⟨rfl, hfiles, hdepends⟩ := (sameValues_iff h (Except.ok.inj hread)).mp hsame
    exact
      { abi := (readsNull_eq_false_iff h.oprefix).mp hnull
        configFiles := plain_of_readConfigFiles h.configFile hconfig
        files := hfiles, depends := hdepends }

theorem roundTrips_of_representable {flags : EmitFlags} {pkg : Pkg}
    (hcompact : flags.compact = false) (hnofiles : flags.nofiles = false) (h : WellFormed pkg)
    (hheld : Representable sys pkg) : RoundTrips sys flags pkg := by
  have hnull := (@readsNull_eq_false_iff flags pkg h.oprefix).mpr hheld.abi
  have hconfig := @readConfigFiles_of_plain sys _ h.configFile h.configFiles hheld.configFiles
  have hread := core_parse_emit sys h hcompact hnofiles
    (((pkg.strings .abi).orElse (fun _ => pkg.strings .altabi)).getD [])
  rw [hconfig] at hread
  cases hparse : pkgParseManifestUcl sys fresh (.object (emitEntries sys flags pkg
    (((pkg.strings .abi).orElse (fun _ => pkg.strings .altabi)).getD []))) with
  | error e =>
    rw [hparse] at hread
    exact nomatch hread
  | ok pkg' =>
    rw [hparse] at hread
    refine ⟨_, pkg', ?_, hparse,
      (sameValues_iff h (Except.ok.inj hread)).mpr ⟨rfl, hheld.files, hheld.depends⟩⟩
    unfold pkgEmitObject
    rw [hnull]
    rfl

/-- A package comes back from its whole manifest exactly if the manifest can hold it: its
configuration files have to be plain, and nothing else that a package may contain is in the way. -/
theorem roundTrips_iff (sys : System) (flags : EmitFlags) (hcompact : flags.compact = false)
    (hnofiles : flags.nofiles = false) (pkg : Pkg) (h : WellFormed pkg) :
    RoundTrips sys flags pkg ↔ Representable sys pkg :=
  ⟨representable_of_roundTrips hcompact hnofiles h, roundTrips_of_representable hcompact hnofiles h⟩

def configPkg (path : Bytes) : Pkg :=
  { fresh with
    strings := Function.update fresh.strings .abi (some (ascii "FreeBSD:14:amd64"))
    configFiles := [path] }

def plainSystem : System where
  fflagstostr _ := some []
  strtofflags s := if s = [] then some (0, 0) else none
  symbolicMode _ := none
  cwd := some (ascii "/root")
  archToLegacy := List.map lowerByte
  noVersionForDeps := false

theorem wellFormed_configPkg {path : Bytes} (h : Stored path) : WellFormed (configPkg path) where
  oprefix := rfl
  desc _ hs := nomatch hs
  scripts _ _ hs := nomatch hs
  lists _ := List.Pairwise.nil
  nonempty _ _ := List.not_mem_nil
  depends := List.Pairwise.nil
  dep _ hdep := absurd hdep List.not_mem_nil
  options := List.Pairwise.nil
  option _ hkv := absurd hkv List.not_mem_nil
  annotations := List.Pairwise.nil
  files := List.Pairwise.nil
  file _ hfile := absurd hfile List.not_mem_nil
  configFiles := List.pairwise_singleton _ path
  configFile path' hpath := by
    rw [List.mem_singleton.mp hpath]
    exact h
  dirs := List.Pairwise.nil
  dir _ hdir := absurd hdir List.not_mem_nil

theorem stored_singleton {name : Bytes} (h : Proper name) (hfits : name.length < 1023)
    (hnul : 0 ∉ name) : Stored (47 :: name) where
  canonical := Or.inr ⟨[name], List.cons_ne_nil _ _, fun cur hcur => List.mem_singleton.mp hcur ▸ h,
    by rw [joinPath_cons]; exact (List.append_nil _).symm⟩
  fits := by
    show name.length + 1 < 1024
    omega
  nul hmem := by
    cases hmem with
    | tail _ hmem => exact hnul hmem

theorem roundTrips_iff_rc :
    RoundTrips plainSystem { compact := false, nofiles := false, localMetadata := false }
      (configPkg (ascii "/rc")) :=
  (roundTrips_iff plainSystem { compact := false, nofiles := false, localMetadata := false } rfl rfl
    (configPkg (ascii "/rc"))
    (wellFormed_configPkg (stored_singleton
      { ne_nil := by decide, ne_dot := by decide, ne_dotdot := by decide, no_slash := by decide }
      (by decide) (by decide)))).mpr
    { abi := Or.inl rfl
      configFiles := fun path hpath => by
        rw [List.mem_singleton.mp hpath]
        decide
      files := fun _ hfile => absurd hfile List.not_mem_nil
      depends := Or.inl rfl }

/-- A percent sign in the name of a configuration file does not come back. -/
theorem not_roundTrips_percent :
    WellFormed (configPkg (ascii "/rc%")) ∧
      ¬ RoundTrips plainSystem { compact := false, nofiles := false, localMetadata := false }
        (configPkg (ascii "/rc%")) := by
  have hform : WellFormed (configPkg (ascii "/rc%")) :=
    wellFormed_configPkg (stored_singleton
      { ne_nil := by decide, ne_dot := by decide, ne_dotdot := by decide, no_slash := by decide }
      (by decide) (by decide))
  refine ⟨hform, fun htrip => ?_⟩
  have hheld := representable_of_roundTrips rfl rfl hform htrip
  have hplain := hheld.configFiles (ascii "/rc%") List.mem_cons_self
  exact absurd hplain (by decide)

end NextBSD.Libpkg.Manifest
