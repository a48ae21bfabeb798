import NextBSD.Libpkg.Manifest.Path
import NextBSD.Library.Run

/-!
# What a key of a manifest reads

`Pkg.core` is the part of a package that comes back from its manifest.  Each key is read from its
element alone: it adds to one part, and the other keys leave the core as it is.
-/

namespace NextBSD.Libpkg.Manifest

open SortedInsert Run

/-- The fields that are compared, with the others as they are in a new package. -/
def Pkg.core (pkg : Pkg) : Pkg :=
  { fresh with
    strings := Function.update fresh.strings .desc (pkg.strings .desc)
    lists := pkg.lists
    depends := pkg.depends
    options := pkg.options
    annotations := pkg.annotations
    files := pkg.files
    configFiles := pkg.configFiles
    dirs := pkg.dirs
    scripts := pkg.scripts }

def listPart (f : ListField) : Part Pkg (List Bytes) where
  get pkg := pkg.lists f
  put l pkg := { pkg with lists := Function.update pkg.lists f l }
  get_put l pkg := Function.update_self f l pkg.lists
  put_put l l' pkg := by
    show { pkg with lists := _ } = { pkg with lists := _ }
    rw [Function.update_idem]
  put_get pkg := by
    show { pkg with lists := _ } = pkg
    rw [Function.update_eq_self]

def scriptPart (type : ScriptType) : Part Pkg (Option Bytes) where
  get pkg := pkg.scripts type
  put s pkg := { pkg with scripts := Function.update pkg.scripts type s }
  get_put s pkg := Function.update_self type s pkg.scripts
  put_put s s' pkg := by
    show { pkg with scripts := _ } = { pkg with scripts := _ }
    rw [Function.update_idem]
  put_get pkg := by
    show { pkg with scripts := _ } = pkg
    rw [Function.update_eq_self]

def dependsPart : Part Pkg (List Dep) where
  get := Pkg.depends
  put l pkg := { pkg with depends := l }
  get_put _ _ := rfl
  put_put _ _ _ := rfl
  put_get _ := rfl

def optionsPart : Part Pkg (List Kv) where
  get := Pkg.options
  put l pkg := { pkg with options := l }
  get_put _ _ := rfl
  put_put _ _ _ := rfl
  put_get _ := rfl

def annotationsPart : Part Pkg (List Kv) where
  get := Pkg.annotations
  put l pkg := { pkg with annotations := l }
  get_put _ _ := rfl
  put_put _ _ _ := rfl
  put_get _ := rfl

def filesPart : Part Pkg (List File) where
  get := Pkg.files
  put l pkg := { pkg with files := l }
  get_put _ _ := rfl
  put_put _ _ _ := rfl
  put_get _ := rfl

def configPart : Part Pkg (List Bytes) where
  get := Pkg.configFiles
  put l pkg := { pkg with configFiles := l }
  get_put _ _ := rfl
  put_put _ _ _ := rfl
  put_get _ := rfl

def dirsPart : Part Pkg (List Dir) where
  get := Pkg.dirs
  put l pkg := { pkg with dirs := l }
  get_put _ _ := rfl
  put_put _ _ _ := rfl
  put_get _ := rfl

/-! ## Reading a list of keys -/

variable (sys : System)

/-- The keys are valid, and a package with the core `v` is read to `r`. -/
structure Reads (es : List (Bytes × Ucl)) (v : Pkg) (r : Except Stop Pkg) : Prop where
  valid : ∀ e ∈ es, validEntry e.1 e.2 = true
  reads : ∀ pkg : Pkg, pkg.core = v →
    (es.foldlM (fun pkg e => parseEntry sys pkg e.1 e.2) pkg).map Pkg.core = r

variable {sys}

theorem Reads.nil {v : Pkg} : Reads sys [] v (.ok v) where
  valid _ he := absurd he List.not_mem_nil
  reads _ hcore := congrArg Except.ok hcore

theorem Reads.append {es es' : List (Bytes × Ucl)} {v v' : Pkg} {r : Except Stop Pkg}
    (h : Reads sys es v (.ok v')) (h' : Reads sys es' v' r) : Reads sys (es ++ es') v r where
  valid e he := (List.mem_append.mp he).elim (h.valid e) (h'.valid e)
  reads pkg hcore := by
    have hfirst := h.reads pkg hcore
    rw [List.foldlM_append]
    cases hrun : es.foldlM (fun pkg e => parseEntry sys pkg e.1 e.2) pkg with
    | error e =>
      rw [hrun] at hfirst
      exact nomatch hfirst
    | ok pkg' =>
      rw [hrun] at hfirst
      exact h'.reads pkg' (Except.ok.inj hfirst)

theorem Reads.append_map {β : Type} {es es' : List (Bytes × Ucl)} {v : Pkg} {x : Except Stop β}
    {f g : β → Pkg} (h : Reads sys es v (x.map f))
    (h' : ∀ b, Reads sys es' (f b) (.ok (g b))) (hvalid : ∀ e ∈ es', validEntry e.1 e.2 = true) :
    Reads sys (es ++ es') v (x.map g) where
  valid e he := (List.mem_append.mp he).elim (h.valid e) (hvalid e)
  reads pkg hcore := by
    have hfirst := h.reads pkg hcore
    rw [List.foldlM_append]
    cases hrun : es.foldlM (fun pkg e => parseEntry sys pkg e.1 e.2) pkg with
    | error e =>
      rw [hrun] at hfirst
      cases x with
      | error e' => exact hfirst
      | ok b => exact nomatch hfirst
    | ok pkg' =>
      rw [hrun] at hfirst
      cases x with
      | error e' => exact nomatch hfirst
      | ok b => exact (h' b).reads pkg' (Except.ok.inj hfirst)

abbrev Silent (sys : System) (es : List (Bytes × Ucl)) : Prop := ∀ v, Reads sys es v (.ok v)

theorem Silent.append {es es' : List (Bytes × Ucl)} (h : Silent sys es) (h' : Silent sys es') :
    Silent sys (es ++ es') := fun v => (h v).append (h' v)

def takesKey (key : Bytes) (attr : Attr) (type : UclType) : Bool :=
  (selectManifestKey key).any (fun sk => sk.attr = attr && sk.validType.contains type)

theorem reads_key {key : Bytes} {attr : Attr} {cur : Ucl} {v : Pkg} {r : Except Stop Pkg}
    (hkey : takesKey key attr cur.type = true)
    (h : ∀ pkg : Pkg, pkg.core = v → (parseData sys attr pkg cur).map Pkg.core = r) :
    Reads sys [(key, cur)] v r := by
  unfold takesKey at hkey
  cases hsel : selectManifestKey key with
  | none =>
    rw [hsel] at hkey
    exact nomatch hkey
  | some sk =>
    rw [hsel, Option.any_some, Bool.and_eq_true, decide_eq_true_eq, List.contains_iff_mem] at hkey
    constructor
    · intro e he
      rw [List.mem_singleton.mp he]
      unfold validEntry
      rw [hsel]
      exact decide_eq_true hkey.2
    · intro pkg hcore
      have hentry : parseEntry sys pkg key cur = parseData sys attr pkg cur := by
        unfold parseEntry
        rw [hsel]
        dsimp only
        rw [if_pos hkey.2, hkey.1]
      show (parseEntry sys pkg key cur >>= pure).map Pkg.core = r
      rw [bind_pure, hentry]
      exact h pkg hcore

theorem silent_key {key : Bytes} {cur : Ucl} (attr : Attr)
    (hkey : takesKey key attr cur.type = true)
    (h : ∀ pkg : Pkg, (parseData sys attr pkg cur).map Pkg.core = .ok pkg.core) :
    Silent sys [(key, cur)] := fun v =>
  reads_key hkey (fun pkg hcore => by rw [h, hcore])

theorem silent_unknown {key : Bytes} (cur : Ucl) (hkey : selectManifestKey key = none) :
    Silent sys [(key, cur)] := fun v => by
  constructor
  · intro e he
    rw [List.mem_singleton.mp he]
    unfold validEntry
    rw [hkey]
  · intro pkg hcore
    have hentry : parseEntry sys pkg key cur = .ok pkg := by
      unfold parseEntry
      rw [hkey]
    show (parseEntry sys pkg key cur >>= pure).map Pkg.core = .ok v
    rw [hentry, ← hcore]
    rfl

theorem silent_nil : Silent sys [] := fun _ => Reads.nil

theorem core_pkgString (pkg : Pkg) (cur : Ucl) {f : StringField} (hf : f ≠ .desc) :
    (pkgString pkg cur f).core = pkg.core := by
  unfold Pkg.core pkgString
  dsimp only
  rw [Function.update_of_ne (Ne.symm hf)]

theorem silent_string {key : Bytes} {f : StringField} (s : Bytes)
    (hkey : takesKey key (.string f) .string = true) (hf : f ≠ .desc) :
    Silent sys [(key, .string s)] :=
  silent_key _ hkey (fun pkg => congrArg Except.ok (core_pkgString pkg (.string s) hf))

theorem silent_exportString (pkg : Pkg) {key : Bytes} {f : StringField}
    (hkey : takesKey key (.string f) .string = true) (hf : f ≠ .desc) :
    Silent sys (exportString pkg key f) := by
  unfold exportString
  cases pkg.strings f with
  | none => exact silent_nil
  | some s => exact silent_string s hkey hf

theorem silent_exportInt (pkg : Pkg) {key : Bytes} {f : IntField}
    (hkey : takesKey key (.int f) .int = true) : Silent sys (exportInt pkg key f) :=
  silent_key _ hkey (fun _ => rfl)

theorem silent_licenselogic (logic : LicenseLogic) :
    Silent sys [(ascii "licenselogic", .string (licenselogicStr logic))] := by
  refine silent_key .licenselogic rfl (fun pkg => ?_)
  cases logic with
  | or => rfl
  | and => rfl
  | single => rfl

theorem silent_ite {c : Prop} [Decidable c] {es : List (Bytes × Ucl)} (h : Silent sys es) :
    Silent sys (if c then es else []) := by
  split_ifs
  · exact h
  · exact silent_nil

theorem silent_emitHead (flags : EmitFlags) (pkg : Pkg) (abi : Bytes) :
    Silent sys (emitHead sys flags pkg abi) := by
  have habi : Silent sys [(ascii "abi", .string abi), (ascii "arch", .string (sys.archToLegacy abi))] :=
    (silent_string (f := .abi) abi rfl (by decide)).append
      (silent_string (f := .altabi) (sys.archToLegacy abi) rfl (by decide))
  unfold emitHead
  refine Silent.append ?_ (silent_licenselogic pkg.licenselogic)
  refine Silent.append ?_ (silent_exportString pkg rfl (by decide))
  refine Silent.append ?_ (silent_exportString pkg rfl (by decide))
  refine Silent.append ?_ (silent_ite (silent_unknown (.int (pkg.ints .timestamp)) rfl))
  refine Silent.append ?_ (silent_exportString pkg rfl (by decide))
  refine Silent.append ?_ (silent_exportInt pkg rfl)
  refine Silent.append ?_ (silent_exportString pkg rfl (by decide))
  refine Silent.append ?_ (silent_exportString pkg rfl (by decide))
  refine Silent.append ?_ habi
  refine Silent.append ?_ (silent_exportString pkg rfl (by decide))
  refine Silent.append ?_ (silent_exportString pkg rfl (by decide))
  refine Silent.append ?_ (silent_exportString pkg rfl (by decide))
  refine Silent.append ?_ (silent_exportString pkg rfl (by decide))
  refine Silent.append ?_ (silent_exportString pkg rfl (by decide))
  exact silent_exportString pkg rfl (by decide)

theorem silent_emitSize (pkg : Pkg) : Silent sys (emitSize pkg) := by
  have hvital : Silent sys [(ascii "vital", .boolean pkg.vital)] :=
    silent_key .vital rfl (fun _ => rfl)
  exact (silent_ite (silent_exportInt pkg rfl)).append (silent_ite hvital)

end NextBSD.Libpkg.Manifest
