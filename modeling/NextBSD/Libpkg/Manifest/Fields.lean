import NextBSD.Libpkg.Manifest.Reads

/-!
# What the keys of an emitted manifest read

Every list is rebuilt in its order, the files and the directories with their attributes as they are
shown.
-/

namespace NextBSD.Libpkg.Manifest

open SortedInsert Run Digits

variable {sys : System}

def ListField.refusesEmpty : ListField → Bool
  | .categories | .licenses | .users | .groups => false
  | _ => true

theorem addListed_ok {f : ListField} {s : Bytes} (h : f.refusesEmpty = true → s ≠ []) (pkg : Pkg) :
    addListed f s pkg = .ok ((listPart f).put
      ((insertSorted id ((listPart f).get pkg) s).getD ((listPart f).get pkg)) pkg) := by
  cases f with
  | categories => rfl
  | licenses => rfl
  | users => rfl
  | groups => rfl
  | shlibsRequired => exact if_neg (h rfl)
  | shlibsRequiredIgnore => exact if_neg (h rfl)
  | shlibsProvided => exact if_neg (h rfl)
  | shlibsProvidedIgnore => exact if_neg (h rfl)
  | conflicts => exact if_neg (h rfl)
  | provides => exact if_neg (h rfl)
  | requires => exact if_neg (h rfl)

theorem takesKey_list (f : ListField) : takesKey f.key (.list f) .array = true := by
  cases f <;> rfl

theorem core_put_list (f : ListField) (l : List Bytes) (pkg : Pkg) :
    ((listPart f).put l pkg).core = (listPart f).put l pkg.core := rfl

theorem reads_emitList {pkg v : Pkg} {f : ListField} (hsorted : SortedInsert.Sorted id (pkg.lists f))
    (hnonempty : f.refusesEmpty = true → [] ∉ pkg.lists f) (hv : v.lists f = []) :
    Reads sys (emitList pkg f) v (.ok ((listPart f).put (pkg.lists f) v)) := by
  unfold emitList emitSeq
  cases hl : pkg.lists f with
  | nil =>
    have hput := (listPart f).put_get v
    rw [show (listPart f).get v = [] from hv] at hput
    rw [hput]
    exact Reads.nil
  | cons s l =>
    rw [← hl]
    have hne : ((pkg.lists f).map Ucl.string).isEmpty = false := by rw [hl]; rfl
    rw [if_neg (by rw [hne]; exact Bool.false_ne_true)]
    refine reads_key (takesKey_list f) (fun pkg' hcore => ?_)
    have hget : (listPart f).get pkg' = [] := by
      rw [← hcore] at hv
      exact hv
    have hstep : ∀ (p : Pkg), ∀ s ∈ pkg.lists f, addListed f s p = .ok ((listPart f).put
        ((insertSorted id ((listPart f).get p) s).getD ((listPart f).get p)) p) := fun p s hs =>
      addListed_ok (fun hrefuses hnil => hnonempty hrefuses (hnil ▸ hs)) p
    have hrun := foldlM_part_ok (listPart f) (fun l s => (insertSorted id l s).getD l) hstep pkg'
    have hlist := foldl_insertSorted_nil id id
      (show SortedInsert.Sorted id ((pkg.lists f).map id) by rw [List.map_id]; exact hsorted)
    rw [List.map_id] at hlist
    rw [hget] at hrun
    have hdata : parseData sys (.list f) pkg' (.array ((pkg.lists f).map Ucl.string)) =
        (pkg.lists f).foldlM (fun p s => addListed f s p) pkg' := by
      show List.foldlM _ pkg' (((pkg.lists f).map Ucl.string).map _) = _
      rw [List.foldlM_map, List.foldlM_map]
    rw [hdata, hrun]
    refine congrArg Except.ok ?_
    rw [core_put_list, hcore]
    exact congrArg (fun l => (listPart f).put l v) hlist

theorem reads_emitLists {pkg v : Pkg} {fs : List ListField} (hnodup : fs.Nodup)
    (hsorted : ∀ f, SortedInsert.Sorted id (pkg.lists f))
    (hnonempty : ∀ f, f.refusesEmpty = true → [] ∉ pkg.lists f) (hv : ∀ f ∈ fs, v.lists f = []) :
    Reads sys (fs.flatMap (emitList pkg)) v
      (.ok (fs.foldl (fun v f => (listPart f).put (pkg.lists f) v) v)) := by
  induction fs generalizing v with
  | nil => exact Reads.nil
  | cons f fs ih =>
    obtain ⟨hf, hnodup⟩ := List.nodup_cons.mp hnodup
    refine (reads_emitList (hsorted f) (hnonempty f) (hv f List.mem_cons_self)).append
      (ih hnodup (fun g hg => ?_))
    have hne : g ≠ f := fun hsame => hf (hsame ▸ hg)
    exact (Function.update_of_ne hne _ _).trans (hv g (List.mem_cons_of_mem _ hg))

theorem reads_map {α β : Type} {key : Bytes} {attr : Attr} {κ : β → Bytes}
    (P : Part Pkg (List β)) {entry : α → Bytes × Ucl} {f : α → β} {l : List α} {v : Pkg}
    (hkey : takesKey key attr .object = true)
    (hobj : ∀ pkg cur, parseData sys attr pkg cur = pkgObj sys pkg cur attr)
    (hstep : ∀ (pkg : Pkg), ∀ a ∈ l, objEntry sys attr (entry a).1 (entry a).2 pkg =
      .ok (P.put ((insertSorted κ (P.get pkg) (f a)).getD (P.get pkg)) pkg))
    (hsorted : SortedInsert.Sorted κ (l.map f))
    (hput : ∀ b (pkg : Pkg), (P.put b pkg).core = P.put b pkg.core)
    (hget : ∀ pkg : Pkg, P.get pkg.core = P.get pkg) (hv : P.get v = []) :
    Reads sys [(key, .object (l.map entry))] v (.ok (P.put (l.map f) v)) := by
  refine reads_key hkey (fun pkg hcore => ?_)
  have hbefore : P.get pkg = [] := by rw [← hget, hcore, hv]
  have hrun := foldlM_part_ok P (fun b a => (insertSorted κ b (f a)).getD b) hstep pkg
  rw [hbefore, foldl_insertSorted_nil κ f hsorted] at hrun
  have hdata : pkgObj sys pkg (.object (l.map entry)) attr =
      l.foldlM (fun pkg a => objEntry sys attr (entry a).1 (entry a).2 pkg) pkg := by
    show List.foldlM _ pkg ((l.map entry).map _) = _
    rw [List.foldlM_map, List.foldlM_map]
  rw [hobj, hdata, hrun]
  refine congrArg Except.ok ?_
  rw [hput, hcore]

theorem reads_emitMap {α β : Type} {key : Bytes} {attr : Attr} {κ : β → Bytes}
    (P : Part Pkg (List β)) {entry : α → Bytes × Ucl} {f : α → β} {l : List α} {v : Pkg}
    (hkey : takesKey key attr .object = true)
    (hobj : ∀ pkg cur, parseData sys attr pkg cur = pkgObj sys pkg cur attr)
    (hstep : ∀ (pkg : Pkg), ∀ a ∈ l, objEntry sys attr (entry a).1 (entry a).2 pkg =
      .ok (P.put ((insertSorted κ (P.get pkg) (f a)).getD (P.get pkg)) pkg))
    (hsorted : SortedInsert.Sorted κ (l.map f))
    (hput : ∀ b (pkg : Pkg), (P.put b pkg).core = P.put b pkg.core)
    (hget : ∀ pkg : Pkg, P.get pkg.core = P.get pkg) (hv : P.get v = []) :
    Reads sys (emitMap key (l.map entry)) v (.ok (P.put (l.map f) v)) := by
  cases l with
  | nil =>
    have hsame := P.put_get v
    rw [hv] at hsame
    rw [List.map_nil, List.map_nil, hsame]
    exact Reads.nil
  | cons a l => exact reads_map P hkey hobj hstep hsorted hput hget hv

theorem objEntry_option {kv : Kv} (hkey : kv.key ≠ []) (hvalue : kv.value ≠ []) (pkg : Pkg) :
    objEntry sys .options (kvEntry kv).1 (kvEntry kv).2 pkg =
      .ok (optionsPart.put ((insertSorted Kv.key (optionsPart.get pkg) kv).getD
        (optionsPart.get pkg)) pkg) :=
  if_neg (not_or.mpr ⟨hkey, hvalue⟩)

theorem objEntry_annotation (kv : Kv) (pkg : Pkg) :
    objEntry sys .annotations (kvEntry kv).1 (kvEntry kv).2 pkg =
      .ok (annotationsPart.put ((insertSorted Kv.key (annotationsPart.get pkg) kv).getD
        (annotationsPart.get pkg)) pkg) := rfl

def shownDep (sys : System) (dep : Dep) : Dep :=
  { dep with version := if sys.noVersionForDeps then none else dep.version }

theorem depAttrs_depEntry (origin version : Bytes) :
    depAttrs sys (none, none) (.object
      [(ascii "origin", .string origin), (ascii "version", .string version)]) =
      (some origin, if sys.noVersionForDeps then none else some version) := by
  show (if (true : Bool) = true ∧ ¬ sys.noVersionForDeps = true then _ else _) = _
  cases sys.noVersionForDeps with
  | false => rfl
  | true => rfl

theorem objEntry_dep {dep : Dep} {origin version : Bytes} (hname : dep.name ≠ [])
    (horigin : dep.origin = some origin) (hversion : dep.version = some version)
    (ho : origin ≠ []) (hv : version ≠ []) (pkg : Pkg) :
    objEntry sys .deps (depEntry dep).1 (depEntry dep).2 pkg =
      .ok (dependsPart.put ((insertSorted Dep.name (dependsPart.get pkg) (shownDep sys dep)).getD
        (dependsPart.get pkg)) pkg) := by
  have hattrs := @depAttrs_depEntry sys origin version
  have hnonempty : ∀ s : Bytes, s ≠ [] → nonempty (some s) = some s := fun s hs =>
    Option.filter_some_pos (decide_eq_true hs)
  have hshown : shownDep sys dep =
      { name := dep.name, origin := nonempty (some origin),
        version := nonempty (if sys.noVersionForDeps then none else some version) } := by
    unfold shownDep
    rw [hnonempty origin ho, hversion]
    split_ifs
    · rw [← horigin]
      rfl
    · rw [hnonempty version hv, ← horigin]
  have hentry : (depEntry dep).2 = .object
      [(ascii "origin", .string origin), (ascii "version", .string version)] := by
    unfold depEntry
    rw [horigin, hversion]
    rfl
  rw [hentry, hshown]
  have hset : objEntry sys .deps dep.name (.object
      [(ascii "origin", .string origin), (ascii "version", .string version)]) pkg =
      pkgSetDepsFromObject sys dep.name (.object
        [(ascii "origin", .string origin), (ascii "version", .string version)]) pkg := rfl
  rw [show (depEntry dep).1 = dep.name from rfl, hset]
  unfold pkgSetDepsFromObject
  simp only [List.foldlM_cons, List.foldlM_nil, hattrs]
  show (pkgAdddep dep.name (some origin) _ pkg >>= _ >>= _) >>= _ = _
  unfold pkgAdddep
  rw [if_neg hname]
  rfl

/-! ## Files and directories -/

def shownFflags (sys : System) (fflags : Nat) : Nat :=
  if fflags = 0 then 0
  else ((nonempty (sys.fflagstostr fflags)).map (fun s => readFflags sys (.string s))).getD 0

def shownFile (sys : System) (file : File) : File :=
  { file with
    sum := some (file.sum.getD (ascii "-"))
    uname := some (file.uname.getD (ascii "root"))
    gname := some (file.gname.getD (ascii "wheel"))
    perm := shownPerm file.perm
    fflags := shownFflags sys file.fflags
    mtime := if 0 < file.mtime then file.mtime else 0 }

def shownDir (sys : System) (dir : Dir) : Dir :=
  { dir with
    uname := some (dir.uname.getD (ascii "root"))
    gname := some (dir.gname.getD (ascii "wheel"))
    perm := shownPerm dir.perm
    fflags := shownFflags sys dir.fflags }

def foldAttrs (attr : Attrs → Bytes → Ucl → Attrs) (es : List (Bytes × Ucl)) (attrs : Attrs) :
    Attrs :=
  es.foldl (fun attrs e => attr attrs e.1 e.2) attrs

theorem readAttrs_object (attr : Attrs → Bytes → Ucl → Attrs) (es : List (Bytes × Ucl)) :
    readAttrs attr (.object es) = foldAttrs attr es Attrs.start := by
  show List.foldl _ Attrs.start (es.map _) = _
  rw [List.foldl_map]
  rfl

theorem foldAttrs_append (attr : Attrs → Bytes → Ucl → Attrs) (es es' : List (Bytes × Ucl))
    (attrs : Attrs) : foldAttrs attr (es ++ es') attrs = foldAttrs attr es' (foldAttrs attr es attrs) :=
  List.foldl_append

theorem strieq_self (s : Bytes) : strieq s s = true := decide_eq_true rfl

theorem strieq_attrKeys :
    strieq (ascii "gname") (ascii "uname") = false ∧ strieq (ascii "sum") (ascii "uname") = false ∧
      strieq (ascii "sum") (ascii "gname") = false ∧ strieq (ascii "perm") (ascii "uname") = false ∧
      strieq (ascii "perm") (ascii "gname") = false ∧ strieq (ascii "perm") (ascii "sum") = false ∧
      strieq (ascii "fflags") (ascii "uname") = false ∧
      strieq (ascii "fflags") (ascii "gname") = false ∧
      strieq (ascii "fflags") (ascii "sum") = false ∧
      strieq (ascii "fflags") (ascii "perm") = false ∧
      strieq (ascii "symlink_target") (ascii "uname") = false ∧
      strieq (ascii "symlink_target") (ascii "gname") = false ∧
      strieq (ascii "symlink_target") (ascii "sum") = false ∧
      strieq (ascii "symlink_target") (ascii "perm") = false ∧
      strieq (ascii "symlink_target") (ascii "fflags") = false ∧
      strieq (ascii "mtime") (ascii "uname") = false ∧
      strieq (ascii "mtime") (ascii "gname") = false ∧
      strieq (ascii "mtime") (ascii "sum") = false ∧
      strieq (ascii "mtime") (ascii "perm") = false ∧
      strieq (ascii "mtime") (ascii "fflags") = false ∧
      strieq (ascii "mtime") (ascii "symlink_target") = false := by decide

theorem fileAttr_keys (sys : System) (attrs : Attrs) (s : Bytes) (n : Int) :
    fileAttr sys attrs (ascii "uname") (.string s) = { attrs with uname := some s } ∧
      fileAttr sys attrs (ascii "gname") (.string s) = { attrs with gname := some s } ∧
      fileAttr sys attrs (ascii "sum") (.string s) = { attrs with sum := some s } ∧
      fileAttr sys attrs (ascii "perm") (.string s) =
        { attrs with perm := (getmode sys s).getD attrs.perm } ∧
      fileAttr sys attrs (ascii "fflags") (.string s) =
        { attrs with fflags := readFflags sys (.string s) } ∧
      fileAttr sys attrs (ascii "symlink_target") (.string s) =
        { attrs with symlinkTarget := some s } ∧
      fileAttr sys attrs (ascii "mtime") (.int n) =
        { attrs with mtime := strtoll (decimal n) } := by
  simp only [fileAttr, strieq_attrKeys, strieq_self, Bool.false_eq_true, false_and, if_false]
  refine ⟨rfl, rfl, rfl, ?_, rfl, rfl, rfl⟩
  rw [if_pos ⟨trivial, .inl rfl⟩, show tostringForced (.string s) = s from rfl]
  cases getmode sys s <;> rfl

theorem dirAttr_keys (sys : System) (attrs : Attrs) (s : Bytes) :
    dirAttr sys attrs (ascii "uname") (.string s) = { attrs with uname := some s } ∧
      dirAttr sys attrs (ascii "gname") (.string s) = { attrs with gname := some s } ∧
      dirAttr sys attrs (ascii "perm") (.string s) =
        { attrs with perm := (getmode sys s).getD attrs.perm } ∧
      dirAttr sys attrs (ascii "fflags") (.string s) =
        { attrs with fflags := readFflags sys (.string s) } := by
  simp only [dirAttr, strieq_attrKeys, strieq_self, Bool.false_eq_true, false_and, if_false]
  refine ⟨rfl, rfl, ?_, rfl⟩
  rw [if_pos ⟨trivial, .inl rfl⟩, show tostringForced (.string s) = s from rfl]
  cases getmode sys s <;> rfl

theorem getD_getmode_permStr (perm : Nat) : (getmode sys (permStr perm)).getD 0 = shownPerm perm := by
  rw [getmode_permStr]
  unfold shownPerm
  split_ifs <;> rfl

theorem foldAttrs_fflags {attr : Attrs → Bytes → Ucl → Attrs} (fflags : Nat) {attrs : Attrs}
    (hattr : ∀ attrs s, attr attrs (ascii "fflags") (.string s) =
      { attrs with fflags := readFflags sys (.string s) }) (h : attrs.fflags = 0) :
    foldAttrs attr (emitFflags sys fflags) attrs =
      { attrs with fflags := shownFflags sys fflags } := by
  have hzero : attrs = { attrs with fflags := 0 } := by rw [← h]
  unfold emitFflags shownFflags
  split_ifs
  · exact hzero
  · cases nonempty (sys.fflagstostr fflags) with
    | none => exact hzero
    | some s => exact hattr attrs s

theorem readAttrs_fileAttrs {file : File} (hmtime : file.mtime < 2 ^ 63) :
    readAttrs (fileAttr sys) (.object (fileAttrs sys file)) =
      { uname := (shownFile sys file).uname, gname := (shownFile sys file).gname
        sum := (shownFile sys file).sum, perm := (shownFile sys file).perm
        fflags := (shownFile sys file).fflags, mtime := (shownFile sys file).mtime
        symlinkTarget := (shownFile sys file).symlinkTarget } := by
  have hfixed : ∀ attrs : Attrs, attrs.perm = 0 →
      foldAttrs (fileAttr sys)
        [(ascii "sum", .string (file.sum.getD (ascii "-"))),
          (ascii "uname", .string (file.uname.getD (ascii "root"))),
          (ascii "gname", .string (file.gname.getD (ascii "wheel"))),
          (ascii "perm", .string (permStr file.perm))] attrs =
        { attrs with
          sum := some (file.sum.getD (ascii "-")), uname := some (file.uname.getD (ascii "root"))
          gname := some (file.gname.getD (ascii "wheel")), perm := shownPerm file.perm } := by
    intro attrs h
    simp only [foldAttrs, List.foldl_cons, List.foldl_nil, fileAttr_keys sys _ _ 0, h,
      getD_getmode_permStr]
  have hsymlink : ∀ attrs : Attrs, attrs.symlinkTarget = none →
      foldAttrs (fileAttr sys)
        (insertKey (ascii "symlink_target") (file.symlinkTarget.map .string)) attrs =
        { attrs with symlinkTarget := file.symlinkTarget } := by
    intro attrs h
    cases file.symlinkTarget with
    | none =>
      show attrs = { attrs with symlinkTarget := none }
      rw [← h]
    | some s => exact (fileAttr_keys sys attrs s 0).2.2.2.2.2.1
  have hmtime : ∀ attrs : Attrs, attrs.mtime = 0 →
      foldAttrs (fileAttr sys)
        (if 0 < file.mtime then [(ascii "mtime", .int file.mtime)] else []) attrs =
        { attrs with mtime := if 0 < file.mtime then file.mtime else 0 } := by
    intro attrs h
    split_ifs with hpos
    · refine (fileAttr_keys sys attrs [] file.mtime).2.2.2.2.2.2.trans ?_
      rw [strtoll_decimal hpos hmtime]
    · show attrs = { attrs with mtime := 0 }
      rw [← h]
  rw [readAttrs_object]
  unfold fileAttrs
  rw [foldAttrs_append, foldAttrs_append, foldAttrs_append, hfixed Attrs.start rfl,
    foldAttrs_fflags file.fflags
      (fun attrs s => (fileAttr_keys sys attrs s 0).2.2.2.2.1) rfl, hsymlink _ rfl, hmtime _ rfl]
  rfl

theorem readAttrs_dirAttrs (dir : Dir) :
    readAttrs (dirAttr sys) (.object (dirAttrs sys dir)) =
      { Attrs.start with
        uname := (shownDir sys dir).uname, gname := (shownDir sys dir).gname
        perm := (shownDir sys dir).perm, fflags := (shownDir sys dir).fflags } := by
  have hfixed : ∀ attrs : Attrs, attrs.perm = 0 →
      foldAttrs (dirAttr sys)
        [(ascii "uname", .string (dir.uname.getD (ascii "root"))),
          (ascii "gname", .string (dir.gname.getD (ascii "wheel"))),
          (ascii "perm", .string (permStr dir.perm))] attrs =
        { attrs with
          uname := some (dir.uname.getD (ascii "root"))
          gname := some (dir.gname.getD (ascii "wheel")), perm := shownPerm dir.perm } := by
    intro attrs h
    simp only [foldAttrs, List.foldl_cons, List.foldl_nil, dirAttr_keys sys, h, getD_getmode_permStr]
  rw [readAttrs_object]
  unfold dirAttrs
  rw [foldAttrs_append, hfixed Attrs.start rfl, foldAttrs_fflags dir.fflags
    (fun attrs s => (dirAttr_keys sys attrs s).2.2.2) rfl]
  rfl

/-- The path is canonical and fits, and holds no `NUL`. -/
structure Stored (path : Bytes) : Prop where
  canonical : Canonical path
  fits : path.length < MAXPATHLEN
  nul : 0 ∉ path

theorem Stored.ne_nil {path : Bytes} (h : Stored path) : path ≠ [] := by
  intro hnil
  cases h.canonical with
  | inl hroot =>
    rw [hroot] at hnil
    exact nomatch hnil
  | inr hcomps =>
    obtain ⟨comps, hne, -, hpath⟩ := hcomps
    exact joinPath_ne_nil hne (hpath ▸ hnil)

theorem Stored.pkgAbsolutepath {path : Bytes} (h : Stored path) :
    Manifest.pkgAbsolutepath sys path MAXPATHLEN = some path := by
  have hsize : 1 < MAXPATHLEN := by
    show 1 < 1024
    omega
  rw [pkgAbsolutepath_canonical sys hsize h.canonical, if_pos h.fits]

theorem objEntry_file {pkg : Pkg} {file : File} (hnone : pkg.oprefix = none)
    (hpath : Stored file.path) (hmtime : file.mtime < 2 ^ 63) (pkg' : Pkg) :
    objEntry sys .files (fileEntry sys pkg file).1 (fileEntry sys pkg file).2 pkg' =
      .ok (filesPart.put ((insertSorted File.path (filesPart.get pkg') (shownFile sys file)).getD
        (filesPart.get pkg')) pkg') := by
  have hemitted : emittedPath pkg file.path = file.path := by
    unfold emittedPath
    rw [hnone]
  have hset : objEntry sys .files (fileEntry sys pkg file).1 (fileEntry sys pkg file).2 pkg' =
      pkgSetFilesFromObject sys (urlencode (emittedPath pkg file.path))
        (.object (fileAttrs sys file)) pkg' := rfl
  rw [hset, hemitted]
  unfold pkgSetFilesFromObject
  dsimp only
  rw [readAttrs_fileAttrs hmtime, urlDecode_urlencode hpath.nul]
  unfold pkgAddfileAttr
  dsimp only
  rw [if_neg hpath.ne_nil, hpath.pkgAbsolutepath]
  have hshown : ∀ t : Int, (if 0 < (if 0 < t then t else 0) then (if 0 < t then t else 0) else 0) =
      if 0 < t then t else 0 := by
    intro t
    split_ifs <;> omega
  show Except.ok { pkg' with files := _ } = Except.ok { pkg' with files := _ }
  unfold shownFile
  dsimp only
  rw [hshown]
  rfl

theorem objEntry_dir {dir : Dir} (hpath : Stored dir.path) (hroot : dir.path ≠ [47]) (pkg : Pkg) :
    objEntry sys .directories (dirEntry sys dir).1 (dirEntry sys dir).2 pkg =
      .ok (dirsPart.put ((insertSorted Dir.path (dirsPart.get pkg) (shownDir sys dir)).getD
        (dirsPart.get pkg)) pkg) := by
  have hset : objEntry sys .directories (dirEntry sys dir).1 (dirEntry sys dir).2 pkg =
      pkgSetDirsFromObject sys (urlencode dir.path) (.object (dirAttrs sys dir)) pkg := rfl
  rw [hset]
  unfold pkgSetDirsFromObject
  dsimp only
  rw [readAttrs_dirAttrs, urlDecode_urlencode hpath.nul]
  unfold pkgAdddirAttr
  dsimp only
  rw [if_neg hpath.ne_nil, if_neg hroot, hpath.pkgAbsolutepath]
  rfl

end NextBSD.Libpkg.Manifest
