import NextBSD.Libpkg.Cstring
import NextBSD.Libpkg.Types
import NextBSD.Library.PathNames

/-!
# Where a foreign package may install

`private/nextbsd_sip.h` of patch 0004.  The function works on raw bytes: a
`strstr` loop looks for a `..` component, three bytes at a time, and a byte
comparison looks for an allowed prefix.  `sipPathAllowed_spec` says it in terms
of the components of the path.
-/

namespace NextBSD.Libpkg

open LexicalPath

def nextbsdSipAllowed : List String := ["/usr/local/", "/var/"]

def nextbsdSipAllowedText : String := "/usr/local/ and /var/"

/-- The loop that looks for a `..` component, from the pointer `p`.  Every round
advances by three bytes, so as many rounds as bytes are enough. -/
def sipDotDotLoop : Nat → List Char → Bool
  | 0, _ => false
  | fuel + 1, p =>
    match strstr p ['/', '.', '.'] with
    | none => false
    | some q =>
      -- `p[3] == '/' || p[3] == '\0'`
      if q[3]? = some '/' ∨ q[3]? = none then true
      else sipDotDotLoop fuel (q.drop 3)

def nextbsdSipPathAllowed (path : Option String) : Bool :=
  match path.map String.toList with
  | none => false
  | some p =>
    if p.head? ≠ some '/' then false
    else if sipDotDotLoop p.length p then false
    else nextbsdSipAllowed.any fun pre =>
      let pre := pre.toList
      let plen := pre.length
      p.take plen == pre || (p.length == plen - 1 && p == pre.take p.length)

def HasDotDot (p : List Char) : Prop :=
  ∃ a b, p = a ++ ['/', '.', '.'] ++ b ∧ (b = [] ∨ ∃ b', b = '/' :: b')

/-- The scan may skip three bytes: the two after the slash are dots, so no
occurrence overlaps the one just read. -/
theorem sipDotDotLoop_iff {fuel : Nat} {p : List Char} (hf : p.length ≤ fuel) :
    sipDotDotLoop fuel p = true ↔ HasDotDot p := by
  induction fuel generalizing p with
  | zero =>
    have hp : p = [] := List.eq_nil_of_length_eq_zero (by omega)
    simp [sipDotDotLoop, HasDotDot, hp]
  | succ fuel ih =>
    rw [sipDotDotLoop]
    cases hs : strstr p ['/', '.', '.'] with
    | none =>
      have hn := strstr_eq_none.mp hs
      simp only [Bool.false_eq_true, false_iff]
      rintro ⟨a, b, rfl, -⟩
      exact hn ⟨a, b, rfl⟩
    | some q =>
      obtain ⟨⟨r, rfl⟩, s, rfl, hfirst⟩ := strstr_eq_some hs
      have hlen : r.length ≤ fuel := by simp at hf; omega
      simp only [List.cons_append, List.nil_append, List.getElem?_cons_succ, List.drop_succ_cons,
        List.drop_zero]
      split
      · rename_i hr
        simp only [true_iff]
        refine ⟨s, r, by simp, ?_⟩
        cases r with
        | nil => exact Or.inl rfl
        | cons c r => simp at hr; exact Or.inr ⟨r, by rw [hr]⟩
      · rename_i hr
        rw [ih hlen]
        constructor
        · rintro ⟨a, b, rfl, hb⟩
          exact ⟨s ++ ['/', '.', '.'] ++ a, b, by simp, hb⟩
        · rintro ⟨a, b, hab, hb⟩
          obtain ⟨a', rfl⟩ := hfirst a b hab
          have hab' : ['/', '.', '.'] ++ r = a' ++ ['/', '.', '.'] ++ b := by
            simpa using hab
          -- the next occurrence starts at a slash, hence after the dots
          match a', hab' with
          | [], h =>
            have hrb : r = b := by simpa using h
            subst hrb
            rcases hb with rfl | ⟨b', rfl⟩ <;> simp at hr
          | [_], h => simp at h
          | [_, _], h => simp at h
          | _ :: _ :: _ :: a', h => exact ⟨a', b, by simp at h; simp [h], hb⟩

theorem hasDotDot_iff {p : List Char} (hp : p.head? = some '/') :
    HasDotDot p ↔ dotdot ∈ components p := by
  obtain ⟨t, rfl⟩ : ∃ t, p = '/' :: t := by
    cases p with
    | nil => simp at hp
    | cons c t => exact ⟨t, by simpa using hp⟩
  constructor
  · rintro ⟨a, b, h, hb⟩
    have hm := mem_components_of_slash (a := a) (q := dotdot) (by simp [dotdot]) hb
    rw [h]
    simpa [dotdot] using hm
  · intro h
    obtain ⟨a, b, hab, ha, hb⟩ := exists_of_mem_components h
    rcases ha with rfl | ⟨a', rfl⟩
    · simp [dotdot] at hab
    · exact ⟨a', b, by simpa [dotdot] using hab, hb⟩

/-! ### The prefixes -/

theorem nextbsdSipPathAllowed_iff {path : String} :
    nextbsdSipPathAllowed (some path) = true ↔
      path.toList.head? = some '/' ∧ dotdot ∉ components path.toList ∧
        ∃ pre ∈ nextbsdSipAllowed,
          pre.toList <+: path.toList ∨ path.toList = pre.toList.dropLast := by
  generalize hp : path.toList = p
  simp only [nextbsdSipPathAllowed, Option.map_some, hp]
  by_cases h0 : p.head? = some '/'
  · rw [if_neg (by simpa using h0)]
    have hscan : sipDotDotLoop p.length p = true ↔ dotdot ∈ components p :=
      (sipDotDotLoop_iff le_rfl).trans (hasDotDot_iff h0)
    by_cases hd : dotdot ∈ components p
    · simp [hscan.mpr hd, hd]
    · rw [if_neg (by simpa [hscan] using hd)]
      simp only [h0, hd, not_false_eq_true, true_and, List.any_eq_true]
      refine exists_congr (fun pre => and_congr_right (fun _ => ?_))
      simp only [Bool.or_eq_true, beq_iff_eq, Bool.and_eq_true]
      refine or_congr ?_ ?_
      · rw [List.prefix_iff_eq_take, eq_comm]
      · rw [List.dropLast_eq_take]
        constructor
        · rintro ⟨hl, he⟩; rw [← hl]; exact he
        · intro he
          have hl : p.length = pre.toList.length - 1 := by
            have := congrArg List.length he
            simpa using this
          exact ⟨hl, by rw [hl]; exact he⟩
  · simp [h0]

end NextBSD.Libpkg

/-!
## Which packages may be installed

`libpkg/nextbsd_policy.c` as patches 0001 and 0004 leave it.  A check that
returns `EPKG_FATAL` is an `.error` with the text it emits.
-/

namespace NextBSD.Libpkg

open LexicalPath

def nextbsdPkgRepo : String := "NextBSD"

def nextbsdOriginKey : String := "org.nextbsd.origin"

def nextbsdOriginValue : String := "NextBSD"

def isPkgItself (name : String) : Bool := name = "pkg" || name = "pkg-devel"

def nextbsdFromRepo (source : Option Pkg) : Bool :=
  match source with
  | none => false
  | some s => s.type = .remote

def nextbsdTrusted (pkg : Pkg) (source : Option Pkg) : Bool :=
  if nextbsdFromRepo source then source.bind Pkg.reponame = some nextbsdPkgRepo
  else pkgKvGet pkg.annotations nextbsdOriginKey = some nextbsdOriginValue

/-- What patch 0001 checks in `nextbsd_check_install`. -/
def nextbsdCheckOrigin (pkg : Pkg) (source : Option Pkg) : Except String Unit :=
  if !nextbsdTrusted pkg source && !nextbsdFromRepo source && isPkgItself pkg.name then
    .error ("NextBSD: refusing to install " ++ pkg.name ++ "-" ++ pkg.version ++
      " from a package file that is not a NextBSD package (no " ++ nextbsdOriginKey ++ "=" ++
      nextbsdOriginValue ++ " annotation): pkg comes only from NextBSD")
  else .ok ()

theorem nextbsdCheckOrigin_ok {pkg : Pkg} {source : Option Pkg} :
    nextbsdCheckOrigin pkg source = .ok () ↔
      (isPkgItself pkg.name = true → nextbsdFromRepo source = false →
        pkgKvGet pkg.annotations nextbsdOriginKey = some nextbsdOriginValue) := by
  rw [nextbsdCheckOrigin, nextbsdTrusted]
  cases nextbsdFromRepo source <;> cases isPkgItself pkg.name <;> simp

/-- The first file, and failing that the first directory, that the SIP rule forbids. -/
def sipFirstBad (pkg : Pkg) : Option String :=
  match pkg.files.find? fun f => !nextbsdSipPathAllowed (some f) with
  | some f => some f
  | none => pkg.dirs.find? fun d => !nextbsdSipPathAllowed (some d)

/-- What patch 0004 adds to `nextbsd_check_install`. -/
def nextbsdCheckSip (pkg : Pkg) (source : Option Pkg) : Except String Unit :=
  if nextbsdTrusted pkg source then .ok ()
  else match sipFirstBad pkg with
    | none => .ok ()
    | some bad =>
      if nextbsdFromRepo source then
        .error ("NextBSD: refusing to install " ++ pkg.name ++ "-" ++ pkg.version ++
          " from repository " ++ (source.bind Pkg.reponame).getD "(unknown)" ++
          ": it installs " ++ bad ++
          "; packages not from the NextBSD repository may only install under " ++
          nextbsdSipAllowedText)
      else
        .error ("NextBSD: refusing to install " ++ pkg.name ++ "-" ++ pkg.version ++
          " from a package file: it installs " ++ bad ++ "; package files without the " ++
          nextbsdOriginKey ++ "=" ++ nextbsdOriginValue ++
          " annotation may only install under " ++ nextbsdSipAllowedText)

def nextbsdCheckInstall (pkg : Pkg) (source : Option Pkg) : Except String Unit := do
  nextbsdCheckOrigin pkg source
  nextbsdCheckSip pkg source

theorem nextbsdCheckInstall_ok {pkg : Pkg} {source : Option Pkg} :
    nextbsdCheckInstall pkg source = .ok () ↔
      nextbsdCheckOrigin pkg source = .ok () ∧ nextbsdCheckSip pkg source = .ok () := by
  simp only [nextbsdCheckInstall, bind, Except.bind]
  cases nextbsdCheckOrigin pkg source <;> simp

theorem sipFirstBad_eq_none {pkg : Pkg} :
    sipFirstBad pkg = none ↔ ∀ p ∈ pkg.files ++ pkg.dirs, nextbsdSipPathAllowed (some p) = true := by
  simp only [sipFirstBad, List.mem_append]
  cases hf : pkg.files.find? fun f => !nextbsdSipPathAllowed (some f) with
  | some f =>
    have hbad := List.find?_some hf
    have hmem := List.mem_of_find?_eq_some hf
    simp only [reduceCtorEq, false_iff]
    intro h
    simp [h f (Or.inl hmem)] at hbad
  | none =>
    simp only [List.find?_eq_none, Bool.not_eq_true', Bool.not_eq_false] at hf ⊢
    exact ⟨fun hd p hp => hp.elim (hf p) (hd p), fun h p hp => h p (Or.inr hp)⟩

theorem nextbsdCheckSip_ok {pkg : Pkg} {source : Option Pkg}
    (ht : nextbsdTrusted pkg source = false) :
    nextbsdCheckSip pkg source = .ok () ↔
      ∀ p ∈ pkg.files ++ pkg.dirs, nextbsdSipPathAllowed (some p) = true := by
  rw [← sipFirstBad_eq_none, nextbsdCheckSip, ht, if_neg Bool.false_ne_true]
  cases sipFirstBad pkg with
  | none => simp
  | some bad => cases nextbsdFromRepo source <;> simp

def sipRoots : List (List (List Char)) := [["usr".toList, "local".toList], ["var".toList]]

/-- The path names one of the directories of `sipRoots`, or something below it. -/
def Confined (path : List Char) : Prop := ∃ root ∈ sipRoots, root <+: resolve path

theorem sipRoots_resolve {pre : String} (h : pre ∈ nextbsdSipAllowed) :
    ∃ root ∈ sipRoots, ∃ p, pre.toList = p ++ ['/'] ∧ root = resolve p := by
  simp only [nextbsdSipAllowed, List.mem_cons, List.not_mem_nil, or_false] at h
  rcases h with rfl | rfl
  · exact ⟨["usr".toList, "local".toList], by simp [sipRoots], "/usr/local".toList, by simp,
      by simp [resolve, components, step, dot, dotdot, List.splitOn,
        List.splitOnP_cons_eq_if_modifyHead]⟩
  · exact ⟨["var".toList], by simp [sipRoots], "/var".toList, by simp,
      by simp [resolve, components, step, dot, dotdot, List.splitOn,
        List.splitOnP_cons_eq_if_modifyHead]⟩

theorem confined_of_allowed {path : String} (h : nextbsdSipPathAllowed (some path) = true) :
    Confined path.toList := by
  obtain ⟨-, hdot, pre, hpre, hp⟩ := nextbsdSipPathAllowed_iff.mp h
  obtain ⟨root, hroot, p, hpp, rfl⟩ := sipRoots_resolve hpre
  refine ⟨resolve p, hroot, ?_⟩
  rcases hp with ⟨q, hq⟩ | hp
  · have hsplit : path.toList = p ++ '/' :: q := by rw [← hq, hpp]; simp
    rw [hsplit] at hdot ⊢
    exact resolve_prefix hdot
  · rw [hp, hpp, List.dropLast_concat]

/-- A package that is not trusted installs only below `/usr/local` and `/var`, and
the path test turns down no path it need not. -/
theorem nextbsdCheckInstall_confines :
    (∀ (pkg : Pkg) (source : Option Pkg), nextbsdTrusted pkg source = false →
      nextbsdCheckInstall pkg source = .ok () →
        ∀ path ∈ pkg.files ++ pkg.dirs, Confined path.toList) ∧
    (∀ path : String, path.toList.head? = some '/' → dotdot ∉ components path.toList →
      (∃ pre ∈ nextbsdSipAllowed, pre.toList <+: path.toList) →
        nextbsdSipPathAllowed (some path) = true) ∧
    ∀ pre ∈ nextbsdSipAllowed,
      nextbsdSipPathAllowed (some (String.ofList pre.toList.dropLast)) = true := by
  refine ⟨fun pkg source ht hok path hpath => ?_, fun path habs hdot hpre => ?_,
    fun pre hpre => ?_⟩
  · have hsip := (nextbsdCheckInstall_ok.mp hok).2
    exact confined_of_allowed ((nextbsdCheckSip_ok ht).mp hsip path hpath)
  · obtain ⟨pre, hmem, hp⟩ := hpre
    exact nextbsdSipPathAllowed_iff.mpr ⟨habs, hdot, pre, hmem, Or.inl hp⟩
  · refine nextbsdSipPathAllowed_iff.mpr ⟨?_, ?_, pre, hpre, Or.inr (by simp)⟩ <;>
      simp only [nextbsdSipAllowed, List.mem_cons, List.not_mem_nil, or_false] at hpre <;>
      rcases hpre with rfl | rfl <;>
      simp [components, dotdot, List.splitOn, List.splitOnP_cons_eq_if_modifyHead]

/-- A package of a foreign repository with a file and a directory it may install. -/
def foreignPackage : Pkg :=
  { type := .remote, name := "nginx", uid := "nginx", reponame := some "FreeBSD",
    files := ["/usr/local//sbin/./nginx", "/var/..x"], dirs := ["/var"] }

theorem nextbsdCheckInstall_foreignPackage :
    nextbsdCheckInstall foreignPackage (some foreignPackage) = .ok () := by
  refine nextbsdCheckInstall_ok.mpr ⟨?_, (nextbsdCheckSip_ok (by decide)).mpr fun p hp => ?_⟩
  · simp [nextbsdCheckOrigin, nextbsdFromRepo, foreignPackage]
  · simp only [foreignPackage, List.cons_append, List.nil_append, List.mem_cons,
      List.not_mem_nil, or_false] at hp
    rcases hp with rfl | rfl | rfl <;>
      simp [nextbsdSipPathAllowed_iff, nextbsdSipAllowed, components, dotdot, List.splitOn,
        List.splitOnP_cons_eq_if_modifyHead]

theorem nextbsdCheckInstall_confines_foreignPackage :
    (∀ path ∈ foreignPackage.files ++ foreignPackage.dirs, Confined path.toList) ∧
      nextbsdSipPathAllowed (some "/usr/local/etc/...") = true :=
  ⟨nextbsdCheckInstall_confines.1 foreignPackage (some foreignPackage) (by decide)
      nextbsdCheckInstall_foreignPackage,
    nextbsdCheckInstall_confines.2.1 "/usr/local/etc/..." (by decide)
      (by simp [components, dotdot, List.splitOn, List.splitOnP_cons_eq_if_modifyHead])
      ⟨"/usr/local/", by simp [nextbsdSipAllowed], by decide⟩⟩

end NextBSD.Libpkg
