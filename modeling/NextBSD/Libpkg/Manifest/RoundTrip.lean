import NextBSD.Libpkg.Manifest.Fields

/-!
# A manifest and the package it came from

What `pkg_parse_manifest_ucl` makes of the object of `pkg_emit_object`, up to the paths of the
configuration files.  These are encoded by the one and not decoded by the other.
-/

namespace NextBSD.Libpkg.Manifest

open SortedInsert Run

variable {sys : System}

/-! ## The description and the scripts -/

structure Text (s : Bytes) : Prop where
  unpadded : Unpadded s
  nul : 0 ∉ s

theorem reads_emitDesc {pkg v : Pkg} (h : ∀ s, pkg.strings .desc = some s → Text s)
    (hv : v.strings .desc = none) :
    Reads sys (emitDesc pkg) v
      (.ok { v with strings := Function.update v.strings .desc (pkg.strings .desc) }) := by
  unfold emitDesc
  cases hdesc : pkg.strings .desc with
  | none =>
    have hsame : Function.update v.strings .desc none = v.strings := by
      rw [← hv, Function.update_eq_self]
    rw [hsame]
    exact Reads.nil
  | some s =>
    have hs := h s hdesc
    refine @reads_key sys _ (.string .desc) _ _ _ rfl (fun pkg' hcore => ?_)
    subst hcore
    refine congrArg Except.ok ?_
    show Pkg.core { pkg' with
      strings := Function.update pkg'.strings .desc (some (urlDecode (trim (urlencode s)))) } = _
    rw [urlDecode_trim_urlencode hs.nul hs.unpadded]
    unfold Pkg.core
    dsimp only
    rw [Function.update_self, Function.update_idem]

theorem scriptTypeStr_key (type : ScriptType) : scriptTypeStr type.key = some type := by
  cases type <;> rfl

theorem objEntry_script {type : ScriptType} {s : Bytes} (h : Text s) (pkg : Pkg) :
    objEntry sys .scripts type.key (.string (trim (urlencode s))) pkg =
      .ok ((scriptPart type).put (some s) pkg) := by
  unfold objEntry
  dsimp only
  rw [scriptTypeStr_key, urlDecode_trim_urlencode h.nul h.unpadded]
  rfl

theorem foldlM_scripts {pkg : Pkg} (h : ∀ type s, pkg.scripts type = some s → Text s)
    {types : List ScriptType} (hnodup : types.Nodup) {pkg' : Pkg}
    (hv : ∀ type ∈ types, pkg'.scripts type = none) :
    (types.flatMap (scriptEntry pkg)).foldlM
        (fun pkg e => objEntry sys .scripts e.1 e.2 pkg) pkg' =
      .ok (types.foldl (fun v type => (scriptPart type).put (pkg.scripts type) v) pkg') := by
  induction types generalizing pkg' with
  | nil => rfl
  | cons type types ih =>
    obtain ⟨hnew, hnodup⟩ := List.nodup_cons.mp hnodup
    have hfirst : (scriptEntry pkg type).foldlM
        (fun pkg e => objEntry sys .scripts e.1 e.2 pkg) pkg' =
        .ok ((scriptPart type).put (pkg.scripts type) pkg') := by
      unfold scriptEntry
      cases hs : pkg.scripts type with
      | none =>
        have hsame := (scriptPart type).put_get pkg'
        rw [show (scriptPart type).get pkg' = none from hv type List.mem_cons_self] at hsame
        rw [hsame]
        rfl
      | some s =>
        show (objEntry sys .scripts type.key (.string (trim (urlencode s))) pkg' >>= pure) = _
        rw [bind_pure, objEntry_script (h type s hs)]
    rw [List.flatMap_cons, List.foldlM_append, hfirst]
    refine ih hnodup (fun type' htype' => ?_)
    have hne : type' ≠ type := fun hsame => hnew (hsame ▸ htype')
    exact (Function.update_of_ne hne _ _).trans (hv type' (List.mem_cons_of_mem _ htype'))

theorem pkgObj_object (pkg : Pkg) (es : List (Bytes × Ucl)) (attr : Attr) :
    pkgObj sys pkg (.object es) attr =
      es.foldlM (fun pkg e => objEntry sys attr e.1 e.2 pkg) pkg := by
  show List.foldlM _ pkg (es.map _) = _
  rw [List.foldlM_map]

theorem foldl_put_scripts (pkg : Pkg) (types : List ScriptType) (v : Pkg) :
    types.foldl (fun v type => (scriptPart type).put (pkg.scripts type) v) v =
      { v with
        scripts := fun type => if type ∈ types then pkg.scripts type else v.scripts type } := by
  have hfold : types.foldl (fun v type => (scriptPart type).put (pkg.scripts type) v) v =
      { v with
        scripts := types.foldl (fun g type => Function.update g type (pkg.scripts type))
          v.scripts } := by
    induction types generalizing v with
    | nil => rfl
    | cons type types ih => exact ih _
  rw [hfold, foldl_update]

theorem mem_scriptOrder (type : ScriptType) : type ∈ scriptOrder := by
  cases type <;> decide

theorem reads_emitScripts {pkg v : Pkg} (h : ∀ type s, pkg.scripts type = some s → Text s)
    (hv : ∀ type, v.scripts type = none) :
    Reads sys (emitScripts pkg) v (.ok { v with scripts := pkg.scripts }) := by
  unfold emitScripts emitMap
  by_cases hempty : (scriptOrder.flatMap (scriptEntry pkg)).isEmpty = true
  · rw [if_pos hempty]
    have hnone : pkg.scripts = v.scripts := by
      funext type
      rw [hv type]
      have hentry := List.flatMap_eq_nil_iff.mp (List.isEmpty_iff.mp hempty) type
        (mem_scriptOrder type)
      unfold scriptEntry at hentry
      cases hs : pkg.scripts type with
      | none => rfl
      | some s =>
        rw [hs] at hentry
        exact nomatch hentry
    rw [hnone]
    exact Reads.nil
  · rw [if_neg hempty]
    refine @reads_key sys _ .scripts _ _ _ rfl (fun pkg' hcore => ?_)
    subst hcore
    have hnodup : scriptOrder.Nodup := by decide
    have hread := @foldlM_scripts sys pkg h scriptOrder hnodup pkg' (fun type _ => hv type)
    rw [foldl_put_scripts] at hread
    simp only [mem_scriptOrder, if_true] at hread
    show (pkgObj sys pkg' (.object _) .scripts).map Pkg.core = _
    rw [pkgObj_object, hread]
    rfl

theorem foldl_put_lists (pkg : Pkg) (fs : List ListField) (v : Pkg) :
    fs.foldl (fun v f => (listPart f).put (pkg.lists f) v) v =
      { v with lists := fun f => if f ∈ fs then pkg.lists f else v.lists f } := by
  have hfold : fs.foldl (fun v f => (listPart f).put (pkg.lists f) v) v =
      { v with
        lists := fs.foldl (fun g f => Function.update g f (pkg.lists f)) v.lists } := by
    induction fs generalizing v with
    | nil => rfl
    | cons f fs ih => exact ih _
  rw [hfold, foldl_update]

theorem reads_listOrder {pkg v : Pkg} (hsorted : ∀ f, SortedInsert.Sorted id (pkg.lists f))
    (hnonempty : ∀ f, f.refusesEmpty = true → [] ∉ pkg.lists f)
    (hv : v.lists = Function.update fresh.lists .licenses (pkg.lists .licenses)) :
    Reads sys (listOrder.flatMap (emitList pkg)) v (.ok { v with lists := pkg.lists }) := by
  have hnodup : listOrder.Nodup := by decide
  have hread := @reads_emitLists sys pkg v listOrder hnodup hsorted hnonempty (fun f hf => by
    have hne : f ≠ .licenses := fun hsame => absurd (hsame ▸ hf) (by decide)
    rw [hv, Function.update_of_ne hne]
    rfl)
  have hall : (fun f => if f ∈ listOrder then pkg.lists f else v.lists f) = pkg.lists := by
    funext f
    by_cases hf : f ∈ listOrder
    · rw [if_pos hf]
    · have hlic : f = .licenses := by
        cases f with
        | licenses => rfl
        | _ => exact absurd (by decide) hf
      rw [if_neg hf, hv, hlic, Function.update_self]
  rw [foldl_put_lists, hall] at hread
  exact hread

/-- `pkg_addconfig_file`, on the configuration files alone. -/
def addConfigPath (sys : System) (configFiles : List Bytes) (path : Bytes) :
    Except Stop (List Bytes) :=
  match pkgAbsolutepath sys path MAXPATHLEN with
  | none => .error .abort
  | some path =>
    match insertSorted id configFiles path with
    | none => .error .fatal
    | some configFiles => .ok configFiles

theorem pkgAddconfigFile_eq (sys : System) (path : Bytes) (pkg : Pkg) :
    pkgAddconfigFile sys path pkg =
      (addConfigPath sys (configPart.get pkg) path).map (fun l => configPart.put l pkg) := by
  unfold pkgAddconfigFile addConfigPath
  cases pkgAbsolutepath sys path MAXPATHLEN with
  | none => rfl
  | some path =>
    rw [show configPart.get pkg = pkg.configFiles from rfl]
    dsimp only
    cases insertSorted id pkg.configFiles path with
    | none => rfl
    | some l => rfl

/-- The configuration files that are read back: the paths as they were encoded. -/
def readConfigFiles (sys : System) (configFiles : List Bytes) : Except Stop (List Bytes) :=
  (configFiles.map urlencode).foldlM (addConfigPath sys) []

theorem reads_emitConfigFiles {pkg v : Pkg} (hv : v.configFiles = []) :
    Reads sys (emitConfigFiles pkg) v
      ((readConfigFiles sys pkg.configFiles).map (fun l => configPart.put l v)) := by
  unfold emitConfigFiles emitSeq
  cases hl : pkg.configFiles with
  | nil =>
    have hsame := configPart.put_get v
    rw [show configPart.get v = [] from hv] at hsame
    show Reads sys [] v (.ok (configPart.put [] v))
    rw [hsame]
    exact Reads.nil
  | cons path l =>
    rw [← hl]
    have hne : (pkg.configFiles.map (fun path => Ucl.string (urlencode path))).isEmpty = false := by
      rw [hl]
      rfl
    rw [if_neg (by rw [hne]; exact Bool.false_ne_true)]
    refine @reads_key sys _ .config _ _ _ rfl (fun pkg' hcore => ?_)
    have hdata : parseData sys .config pkg'
        (.array (pkg.configFiles.map (fun path => .string (urlencode path)))) =
        (pkg.configFiles.map urlencode).foldlM (fun p s => pkgAddconfigFile sys s p) pkg' := by
      show List.foldlM _ pkg' ((pkg.configFiles.map _).map _) = _
      rw [List.foldlM_map, List.foldlM_map, List.foldlM_map]
    have hempty : configPart.get pkg' = [] := by
      rw [← hcore] at hv
      exact hv
    have hrun := foldlM_part configPart
      (fun (p : Pkg) (s : Bytes) (_ : s ∈ pkg.configFiles.map urlencode) =>
        pkgAddconfigFile_eq sys s p) pkg'
    rw [hempty] at hrun
    rw [hdata, hrun]
    show Except.map Pkg.core (Except.map _ (readConfigFiles sys pkg.configFiles)) = _
    cases readConfigFiles sys pkg.configFiles with
    | error e => rfl
    | ok l' =>
      subst hcore
      rfl

theorem silent_emitLuaScripts (pkg : Pkg) : Silent sys (emitLuaScripts pkg) := by
  have hentry : ∀ (pkg' : Pkg), ∀ e ∈ luaOrder.flatMap (luaEntry pkg),
      (objEntry sys .luaScripts e.1 e.2 pkg').map Pkg.core = .ok pkg'.core := by
    intro pkg' e _
    have hlua : ∀ l, (objEntry sys .luaScripts e.1 (.array l) pkg').map Pkg.core =
        .ok pkg'.core := by
      intro l
      unfold objEntry
      dsimp only
      cases luaScriptTypeStr e.1 with
      | none => rfl
      | some type => rfl
    cases hcur : e.2 with
    | array l => exact hlua l
    | object es => rfl
    | string s => rfl
    | int i => rfl
    | boolean b => rfl
  unfold emitLuaScripts emitMap
  split_ifs
  · exact silent_nil
  · refine silent_key .luaScripts rfl (fun pkg' => ?_)
    show (pkgObj sys pkg' (.object _) .luaScripts).map Pkg.core = _
    rw [pkgObj_object]
    exact foldlM_silent hentry pkg'

theorem messageEntry_messageUcl (pkg : Pkg) (msg : Message) :
    (messageEntry pkg (messageUcl msg)).map Pkg.core = .ok pkg.core := by
  have hstr : (messageUcl msg).findString (ascii "message") = some (trim msg.str) := rfl
  unfold messageEntry
  rw [hstr]
  dsimp only
  split_ifs <;> rfl

theorem silent_emitMessage (pkg : Pkg) : Silent sys (emitMessage pkg) := by
  unfold emitMessage emitSeq
  split_ifs
  · exact silent_nil
  · refine silent_key .message rfl (fun pkg' => ?_)
    have hrun : parseData sys .message pkg' (.array (pkg.message.map messageUcl)) =
        pkg.message.foldlM (fun pkg msg => messageEntry pkg (messageUcl msg)) pkg' := by
      show List.foldlM _ pkg' ((pkg.message.map messageUcl).map _) = _
      rw [List.foldlM_map, List.foldlM_map]
    rw [hrun]
    exact foldlM_silent (fun pkg msg _ => messageEntry_messageUcl pkg msg) pkg'

/-! ## The whole manifest -/

/-- What the functions that add to a package keep true of it, and what is asked of its texts. -/
structure WellFormed (pkg : Pkg) : Prop where
  oprefix : pkg.oprefix = none
  desc : ∀ s, pkg.strings .desc = some s → Text s
  scripts : ∀ type s, pkg.scripts type = some s → Text s
  lists : ∀ f, SortedInsert.Sorted id (pkg.lists f)
  nonempty : ∀ f, f.refusesEmpty = true → [] ∉ pkg.lists f
  depends : SortedInsert.Sorted Dep.name pkg.depends
  dep : ∀ dep ∈ pkg.depends, dep.name ≠ [] ∧ (∃ origin, dep.origin = some origin ∧ origin ≠ []) ∧
    ∃ version, dep.version = some version ∧ version ≠ []
  options : SortedInsert.Sorted Kv.key pkg.options
  option : ∀ kv ∈ pkg.options, kv.key ≠ [] ∧ kv.value ≠ []
  annotations : SortedInsert.Sorted Kv.key pkg.annotations
  files : SortedInsert.Sorted File.path pkg.files
  file : ∀ file ∈ pkg.files, Stored file.path ∧ file.mtime < 2 ^ 63
  configFiles : SortedInsert.Sorted id pkg.configFiles
  configFile : ∀ path ∈ pkg.configFiles, Stored path
  dirs : SortedInsert.Sorted Dir.path pkg.dirs
  dir : ∀ dir ∈ pkg.dirs, Stored dir.path ∧ dir.path ≠ [47]

def readBack (sys : System) (flags : EmitFlags) (pkg : Pkg) (configFiles : List Bytes) : Pkg :=
  { fresh with
    strings := Function.update fresh.strings .desc (pkg.strings .desc)
    lists := pkg.lists
    depends := pkg.depends.map (shownDep sys)
    options := pkg.options
    annotations := pkg.annotations.filter (fun kv => !kv.internal || flags.localMetadata)
    files := pkg.files.map (shownFile sys)
    configFiles := configFiles
    dirs := pkg.dirs.map (shownDir sys)
    scripts := pkg.scripts }

theorem sorted_map {α β κ : Type} [LT κ] {key : α → κ} {key' : β → κ} {f : α → β}
    (hkey : ∀ a, key' (f a) = key a) {l : List α} (h : SortedInsert.Sorted key l) :
    SortedInsert.Sorted key' (l.map f) := by
  refine List.Pairwise.map f (fun a b hab => ?_) h
  rw [hkey, hkey]
  exact hab

theorem reads_emitAnnotations {pkg v : Pkg} (flags : EmitFlags)
    (hsorted : SortedInsert.Sorted Kv.key pkg.annotations) (hv : v.annotations = []) :
    Reads sys (emitAnnotations flags pkg) v (.ok (annotationsPart.put
      (pkg.annotations.filter (fun kv => !kv.internal || flags.localMetadata)) v)) := by
  unfold emitAnnotations
  cases hl : pkg.annotations with
  | nil =>
    have hsame := annotationsPart.put_get v
    rw [show annotationsPart.get v = [] from hv] at hsame
    show Reads sys [] v (.ok (annotationsPart.put [] v))
    rw [hsame]
    exact Reads.nil
  | cons kv l =>
    rw [hl] at hsorted
    have hread := @reads_map sys Kv Kv (ascii "annotations") .annotations Kv.key annotationsPart
      kvEntry id ((kv :: l).filter (fun kv => !kv.internal || flags.localMetadata)) v rfl
      (fun _ _ => rfl) (fun p kv _ => objEntry_annotation kv p)
      (sorted_map (fun _ => rfl) (List.Pairwise.filter _ hsorted)) (fun _ _ => rfl)
      (fun _ => rfl) hv
    rw [List.map_id] at hread
    exact hread

theorem core_fresh : fresh.core = fresh := by
  show { fresh with strings := Function.update fresh.strings .desc none } = fresh
  rw [show Function.update fresh.strings .desc none = fresh.strings from
    Function.update_eq_self _ _]

def entriesBefore (sys : System) (flags : EmitFlags) (pkg : Pkg) (abi : Bytes) :
    List (Bytes × Ucl) :=
  emitHead sys flags pkg abi ++
    emitList pkg .licenses ++
    emitSize pkg ++
    emitDesc pkg ++
    emitMap (ascii "deps") (pkg.depends.map depEntry) ++
    listOrder.flatMap (emitList pkg) ++
    emitMap (ascii "options") (pkg.options.map kvEntry) ++
    emitAnnotations flags pkg ++
    emitFiles sys pkg

def entriesAfter (sys : System) (pkg : Pkg) : List (Bytes × Ucl) :=
  emitDirs sys pkg ++ emitScripts pkg ++ emitLuaScripts pkg ++ emitMessage pkg

theorem emitEntries_eq {flags : EmitFlags} (hcompact : flags.compact = false)
    (hnofiles : flags.nofiles = false) (pkg : Pkg) (abi : Bytes) :
    emitEntries sys flags pkg abi =
      entriesBefore sys flags pkg abi ++ (emitConfigFiles pkg ++ entriesAfter sys pkg) := by
  unfold emitEntries entriesBefore entriesAfter
  rw [hcompact, hnofiles]
  simp only [Bool.false_eq_true, if_false, List.append_assoc]

theorem reads_entriesBefore {pkg : Pkg} (h : WellFormed pkg) (flags : EmitFlags) (abi : Bytes) :
    Reads sys (entriesBefore sys flags pkg abi) fresh
      (.ok { readBack sys flags pkg [] with dirs := [], scripts := fresh.scripts }) := by
  have hlicenses := @reads_emitList sys pkg fresh .licenses (h.lists _) (h.nonempty _) rfl
  have hdeps := fun v hv => @reads_emitMap sys Dep Dep (ascii "deps") .deps Dep.name dependsPart
    depEntry (shownDep sys) pkg.depends v rfl (fun _ _ => rfl)
    (fun p dep hdep => by
      obtain ⟨hname, ⟨origin, horigin, ho⟩, version, hversion, hv⟩ := h.dep dep hdep
      exact objEntry_dep hname horigin hversion ho hv p)
    (sorted_map (fun _ => rfl) h.depends) (fun _ _ => rfl) (fun _ => rfl) hv
  have hoptions := fun v hv => @reads_emitMap sys Kv Kv (ascii "options") .options Kv.key
    optionsPart kvEntry id pkg.options v rfl (fun _ _ => rfl)
    (fun p kv hkv => objEntry_option (h.option kv hkv).1 (h.option kv hkv).2 p)
    (sorted_map (fun _ => rfl) h.options) (fun _ _ => rfl) (fun _ => rfl) hv
  have hfiles := fun v hv => @reads_emitMap sys File File (ascii "files") .files File.path
    filesPart (fileEntry sys pkg) (shownFile sys) pkg.files v rfl (fun _ _ => rfl)
    (fun p file hfile => objEntry_file h.oprefix (h.file file hfile).1 (h.file file hfile).2 p)
    (sorted_map (fun _ => rfl) h.files) (fun _ _ => rfl) (fun _ => rfl) hv
  have hlast := ((((((((silent_emitHead flags pkg abi fresh).append hlicenses).append
    (silent_emitSize pkg _)).append (reads_emitDesc h.desc rfl)).append (hdeps _ rfl)).append
    (reads_listOrder h.lists h.nonempty rfl)).append (hoptions _ rfl)).append
    (reads_emitAnnotations flags h.annotations rfl)).append (hfiles _ rfl)
  rw [List.map_id] at hlast
  exact hlast

theorem reads_entriesAfter {pkg : Pkg} (h : WellFormed pkg) (flags : EmitFlags)
    (configFiles : List Bytes) :
    Reads sys (entriesAfter sys pkg)
      { readBack sys flags pkg configFiles with dirs := [], scripts := fresh.scripts }
      (.ok (readBack sys flags pkg configFiles)) := by
  have hdirs := @reads_emitMap sys Dir Dir (ascii "directories") .directories Dir.path
    dirsPart (dirEntry sys) (shownDir sys) pkg.dirs
    { readBack sys flags pkg configFiles with dirs := [], scripts := fresh.scripts }
    rfl (fun _ _ => rfl)
    (fun p dir hdir => objEntry_dir (h.dir dir hdir).1 (h.dir dir hdir).2 p)
    (sorted_map (fun _ => rfl) h.dirs) (fun _ _ => rfl) (fun _ => rfl) rfl
  exact ((hdirs.append (reads_emitScripts h.scripts (fun _ => rfl))).append
    (silent_emitLuaScripts pkg _)).append (silent_emitMessage pkg _)

theorem core_parse_of_reads {es : List (Bytes × Ucl)} {r : Except Stop Pkg}
    (h : Reads sys es fresh r) :
    (pkgParseManifestUcl sys fresh (.object es)).map Pkg.core = r := by
  have hvalid : (Ucl.object es).children.all
      (fun cur => cur.1.all (fun key => validEntry key cur.2)) = true := by
    rw [List.all_eq_true]
    intro cur hcur
    obtain ⟨e, he, rfl⟩ := List.mem_map.mp hcur
    exact h.valid e he
  have hrun : parseManifest sys fresh (.object es) =
      es.foldlM (fun pkg e => parseEntry sys pkg e.1 e.2) fresh := by
    show List.foldlM _ fresh (es.map _) = _
    rw [List.foldlM_map]
  unfold pkgParseManifestUcl
  rw [if_pos hvalid, hrun]
  exact h.reads fresh core_fresh

theorem core_parse_emit (sys : System) {pkg : Pkg} (h : WellFormed pkg) {flags : EmitFlags}
    (hcompact : flags.compact = false) (hnofiles : flags.nofiles = false) (abi : Bytes) :
    (pkgParseManifestUcl sys fresh (.object (emitEntries sys flags pkg abi))).map Pkg.core =
      (readConfigFiles sys pkg.configFiles).map (readBack sys flags pkg) := by
  refine core_parse_of_reads ?_
  rw [emitEntries_eq hcompact hnofiles]
  refine (reads_entriesBefore h flags abi).append ?_
  exact (reads_emitConfigFiles rfl).append_map (fun l => reads_entriesAfter h flags l)
    (reads_entriesAfter h flags []).valid

end NextBSD.Libpkg.Manifest
