import Mathlib.Data.List.TakeWhile
import NextBSD.Library.Digits
import NextBSD.Libpkg.Abi

/-!
# ABI strings: printing, and which strings are read

`pkg_abi_to_string`, and for every string what `pkg_abi_from_string` does with it.
-/

namespace NextBSD.Libpkg.AbiText

open Digits

/-- `%d` of a number that is not negative. -/
def decimal (n : Nat) : List Char :=
  if n = 0 then ['0'] else (printDigits 10 n).map fun d => Char.ofNat (48 + d)

/-- `%d`. -/
def printInt : Int → List Char
  | .ofNat n => decimal n
  | .negSucc n => '-' :: decimal (n + 1)

def pkgOsToString (os : PkgOs) : String :=
  ((osTable.find? fun e => e.os = os).map OsEntry.string).getD "(null)"

/-- `pkg_arch_to_string`; a null pointer is printed as `(null)`. -/
def pkgArchToString (os : PkgOs) (arch : PkgArch) : String :=
  match if arch = .amd64 then amd64String os else none with
  | some string => string
  | none => ((archStringTable.find? fun e => e.1 = arch).map Prod.snd).getD "(null)"

/-- `pkg_abi_to_string`; `none` where its assertion fails. -/
def pkgAbiToString (abi : PkgAbi) : Option String :=
  (pkgAbiStringOnlyMajorVersion abi.os).map fun onlyMajor =>
    String.ofList ((pkgOsToString abi.os).toList ++ ':' :: (printInt abi.major ++
      (if onlyMajor then [] else '.' :: printInt abi.minor) ++
      ':' :: (pkgArchToString abi.os abi.arch).toList))

/-- The fields of an ABI string.  What follows the second colon is the architecture. -/
structure AbiFields where
  os : PkgOs
  version : List Char
  arch : Option (List Char)
  deriving DecidableEq, Repr

def abiFields (string : String) : AbiFields :=
  { os := pkgOsFromString (String.ofList (strsep string.toList ':').1)
    version := (strsep ((strsep string.toList ':').2.getD []) ':').1
    arch := (strsep ((strsep string.toList ':').2.getD []) ':').2 }

def dotted (version : List Char) : Option (List Char × List Char × Option (List Char)) :=
  match strsep version '.' with
  | (_, none) => none
  | (major, some rest) => some (major, strsep rest '.')

def versionNumber (field : List Char) : Option Int := strtonum field 1 intMax

def versionParts (fields : AbiFields) : List (List Char) :=
  match pkgAbiStringOnlyMajorVersion fields.os, dotted fields.version with
  | some true, _ => [fields.version]
  | some false, some (major, minor, _) => [major, minor]
  | _, _ => []

def archKnown (fields : AbiFields) : Bool :=
  match fields.arch with
  | none => false
  | some arch =>
    let arch := pkgArchFromString fields.os (String.ofList arch)
    arch ≠ .unknown && (fields.os ≠ .dragonfly || arch = .amd64)

/-- The string is not one of those that `pkg_abi_from_string` mistreats: a version after the OS
`*`; two version parts of which neither is a number, with nothing or a lone `*` after them; two
version parts of which one is neither a number nor `*`, with a known architecture. -/
def wellTreated (fields : AbiFields) : Bool :=
  if fields.os = .any then fields.version = []
  else
    match pkgAbiStringOnlyMajorVersion fields.os, dotted fields.version with
    | some false, some (major, minor, third) =>
      if versionNumber major = none ∧ versionNumber minor = none then
        third ≠ none && (third ≠ some ['*'] || (major = ['*'] && minor = ['*']))
      else
        !archKnown fields || [major, minor].all fun part =>
          (versionNumber part).isSome || part = ['*']
    | _, _ => true

/-- What a caller may expect of a string: an answer, and no string accepted with a version part that
is neither a number nor `*`. -/
def Treated (string : String) : Prop :=
  pkgAbiFromString string ≠ .error .abort ∧
    ∀ abi, pkgAbiFromString string = .ok abi →
      ∀ part ∈ versionParts (abiFields string), (versionNumber part).isSome ∨ part = ['*']

/-- The part of `pkg_abi_from_string` behind the version. -/
def afterVersion (string : String) (fields : AbiFields) (v : AbiVersion) : Except AbiError PkgAbi :=
  if v.err then
    match v.version with
    | none => .error .abort
    | some version =>
      if version = ['*'] then .ok { os := fields.os, arch := .any }
      else .error (.invalid ("Invalid version in ABI string '" ++ string ++ "'"))
  else match fields.arch with
    | none => .error (.invalid ("Invalid ABI string '" ++ string ++ "', missing architecture"))
    | some arch =>
      let arch' := pkgArchFromString fields.os (String.ofList arch)
      if arch' = .unknown then
        .error (.invalid ("Unknown architecture '" ++ String.ofList arch ++ "' in ABI string"))
      else if fields.os = .dragonfly ∧ arch' ≠ .amd64 then
        .error (.invalid ("Invalid ABI string '" ++ string ++
          "', only x86:64 is supported on dragonfly."))
      else .ok { os := fields.os, major := v.major.getD 0, minor := v.minor.getD 0, arch := arch' }

theorem pkgAbiFromString_eq {string : String} {fields : AbiFields} (h : abiFields string = fields)
    (hos : fields.os ≠ .unknown) (hversion : fields.version ≠ []) {onlyMajor : Bool}
    (honly : pkgAbiStringOnlyMajorVersion fields.os = some onlyMajor) :
    pkgAbiFromString string =
      (abiVersion onlyMajor string fields.version).bind (afterVersion string fields) := by
  subst h
  unfold pkgAbiFromString
  dsimp only
  have honly' : pkgAbiStringOnlyMajorVersion
      (pkgOsFromString (String.ofList (strsep string.toList ':').1)) = some onlyMajor := honly
  refine (if_neg hos).trans ((if_neg hversion).trans ?_)
  rw [honly']
  rfl

theorem pkgAbiFromString_unknown {string : String} (hos : (abiFields string).os = .unknown) :
    ∃ message, pkgAbiFromString string = .error (.invalid message) := ⟨_, if_pos hos⟩

theorem pkgAbiFromString_empty {string : String} (hos : (abiFields string).os ≠ .unknown)
    (hversion : (abiFields string).version = []) :
    pkgAbiFromString string = .ok { os := .any, arch := .any } ∧ (abiFields string).os = .any ∨
      ∃ message, pkgAbiFromString string = .error (.invalid message) := by
  have hempty : pkgAbiFromString string =
      if (abiFields string).os = .any then .ok { os := (abiFields string).os, arch := .any }
      else .error (.invalid ("Invalid ABI string '" ++ string ++
        "', missing version and architecture")) :=
    (if_neg hos).trans (if_pos hversion)
  by_cases hany : (abiFields string).os = .any
  · rw [if_pos hany, hany] at hempty
    exact Or.inl ⟨hempty, hany⟩
  · rw [if_neg hany] at hempty
    exact Or.inr ⟨_, hempty⟩

theorem pkgAbiFromString_any {string : String} (hos : (abiFields string).os = .any)
    (hversion : (abiFields string).version ≠ []) :
    pkgAbiFromString string = .error .abort := by
  have hunknown : (abiFields string).os ≠ .unknown := by
    rw [hos]
    decide
  unfold pkgAbiFromString
  dsimp only
  have hos' : pkgOsFromString (String.ofList (strsep string.toList ':').1) = .any := hos
  refine (if_neg hunknown).trans ((if_neg hversion).trans ?_)
  rw [hos']
  rfl

theorem afterVersion_pass (string : String) (fields : AbiFields) {v : AbiVersion}
    (hv : v.err = false) :
    (archKnown fields = true ∧ ∃ arch, fields.arch = some arch ∧ afterVersion string fields v =
      .ok { os := fields.os, major := v.major.getD 0, minor := v.minor.getD 0
            arch := pkgArchFromString fields.os (String.ofList arch) }) ∨
      (archKnown fields = false ∧
        ∃ message, afterVersion string fields v = .error (.invalid message)) := by
  have herr : ¬ v.err = true := by
    rw [hv]
    exact Bool.false_ne_true
  unfold archKnown afterVersion
  rw [if_neg herr]
  cases fields.arch with
  | none => exact Or.inr ⟨rfl, _, rfl⟩
  | some arch =>
    dsimp only
    generalize harch : pkgArchFromString fields.os (String.ofList arch) = arch'
    by_cases hunknown : arch' = .unknown
    · rw [if_pos hunknown, hunknown]
      exact Or.inr ⟨rfl, _, rfl⟩
    · rw [if_neg hunknown, decide_eq_true hunknown, Bool.true_and]
      by_cases hdragonfly : fields.os = .dragonfly ∧ arch' ≠ .amd64
      · rw [if_pos hdragonfly]
        refine Or.inr ⟨?_, _, rfl⟩
        rw [decide_eq_false (not_not.mpr hdragonfly.1), decide_eq_false hdragonfly.2]
        rfl
      · rw [if_neg hdragonfly]
        refine Or.inl ⟨?_, arch, rfl, by rw [harch]⟩
        rw [Bool.or_eq_true, decide_eq_true_iff, decide_eq_true_iff]
        exact (not_and_or.mp hdragonfly).imp id not_not.mp

theorem afterVersion_refuse (string : String) (fields : AbiFields) {v : AbiVersion}
    (hv : v.err = true) :
    (v.version = none ∧ afterVersion string fields v = .error .abort) ∨
      (v.version = some ['*'] ∧ afterVersion string fields v =
        .ok { os := fields.os, arch := .any }) ∨
      (v.version ≠ none ∧ v.version ≠ some ['*'] ∧
        ∃ message, afterVersion string fields v = .error (.invalid message)) := by
  unfold afterVersion
  rw [if_pos hv]
  cases v.version with
  | none => exact Or.inl ⟨rfl, rfl⟩
  | some version =>
    by_cases hstar : version = ['*']
    · exact Or.inr (Or.inl ⟨congrArg some hstar, if_pos hstar⟩)
    · exact Or.inr (Or.inr ⟨nofun, fun h => hstar (Option.some.inj h), _, if_neg hstar⟩)

/-! ## Which strings are treated well -/

theorem treated_of_invalid {string : String}
    (h : ∃ message, pkgAbiFromString string = .error (.invalid message)) : Treated string := by
  obtain ⟨message, h⟩ := h
  refine ⟨fun habort => ?_, fun abi hok => ?_⟩
  · rw [h] at habort
    exact AbiError.noConfusion (Except.error.inj habort)
  · rw [h] at hok
    exact Except.noConfusion rfl rfl (heq_of_eq hok)

theorem treated_of_ok {string : String} {abi : PkgAbi} (h : pkgAbiFromString string = .ok abi) :
    Treated string ↔ ∀ part ∈ versionParts (abiFields string),
      (versionNumber part).isSome ∨ part = ['*'] := by
  constructor
  · exact fun htreated => htreated.2 abi h
  · intro hparts
    refine ⟨fun habort => ?_, fun _ _ => hparts⟩
    rw [h] at habort
    exact Except.noConfusion rfl rfl (heq_of_eq habort)

theorem not_treated_of_abort {string : String} (h : pkgAbiFromString string = .error .abort) :
    ¬ Treated string := fun htreated => htreated.1 h

theorem treated_onlyMajor {string : String} (hos : (abiFields string).os ≠ .unknown)
    (hversion : (abiFields string).version ≠ [])
    (honly : pkgAbiStringOnlyMajorVersion (abiFields string).os = some true) :
    Treated string := by
  have hrun := pkgAbiFromString_eq rfl hos hversion honly
  have hparts : versionParts (abiFields string) = [(abiFields string).version] := by
    unfold versionParts
    rw [honly]
  cases hnumber : versionNumber (abiFields string).version with
  | some major =>
    have hv : abiVersion true string (abiFields string).version = .ok
        { major := some major, minor := none, version := some (abiFields string).version
          err := false } := by
      unfold versionNumber at hnumber
      unfold abiVersion
      rw [if_pos rfl, hnumber]
      rfl
    rw [hv] at hrun
    rcases afterVersion_pass string (abiFields string)
        (v := ⟨some major, none, some (abiFields string).version, false⟩) rfl with
      ⟨-, arch, -, hok⟩ | ⟨-, hinvalid⟩
    · refine (treated_of_ok (hrun.trans hok)).mpr fun part hpart => ?_
      rw [hparts] at hpart
      rw [List.mem_singleton.mp hpart, hnumber]
      exact Or.inl rfl
    · exact treated_of_invalid (hinvalid.imp fun _ h => hrun.trans h)
  | none =>
    have hv : abiVersion true string (abiFields string).version = .ok
        { major := none, minor := none, version := some (abiFields string).version
          err := true } := by
      unfold versionNumber at hnumber
      unfold abiVersion
      rw [if_pos rfl, hnumber]
      rfl
    rw [hv] at hrun
    rcases afterVersion_refuse string (abiFields string)
        (v := ⟨none, none, some (abiFields string).version, true⟩) rfl with
      ⟨hnone, -⟩ | ⟨hstar, hok⟩ | ⟨-, -, hinvalid⟩
    · exact absurd hnone (Option.some_ne_none _)
    · refine (treated_of_ok (hrun.trans hok)).mpr fun part hpart => ?_
      rw [hparts] at hpart
      rw [List.mem_singleton.mp hpart]
      exact Or.inr (Option.some.inj hstar)
    · exact treated_of_invalid (hinvalid.imp fun _ h => hrun.trans h)

theorem abiVersion_dotted (string : String) {version major minor : List Char}
    {third : Option (List Char)} (h : dotted version = some (major, minor, third)) :
    abiVersion false string version = .ok
      (match versionNumber major with
      | some n => ⟨some n, none, third, false⟩
      | none => ⟨none, versionNumber minor, third, (versionNumber minor).isNone⟩) := by
  unfold dotted at h
  unfold abiVersion versionNumber
  rw [if_neg Bool.false_ne_true]
  cases hsplit : strsep version '.' with
  | mk first rest =>
    rw [hsplit] at h
    cases rest with
    | none => exact absurd h.symm (Option.some_ne_none _)
    | some rest =>
      obtain ⟨rfl, hrest⟩ := Prod.mk.inj (Option.some.inj h)
      dsimp only
      rw [hrest]
      cases strtonum first 1 intMax with
      | some n => rfl
      | none =>
        cases strtonum minor 1 intMax with
        | some n => rfl
        | none => rfl

theorem abiVersion_undotted (string : String) {version : List Char} (h : dotted version = none)
    {fields : AbiFields} :
    ∃ message, (abiVersion false string version).bind (afterVersion string fields) =
      .error (.invalid message) := by
  unfold dotted at h
  unfold abiVersion
  cases hsplit : strsep version '.' with
  | mk first rest =>
    rw [hsplit] at h
    cases rest with
    | none => exact ⟨_, rfl⟩
    | some rest => exact absurd h (Option.some_ne_none _)

theorem treated_dotted {string : String} (hos : (abiFields string).os ≠ .unknown)
    (hversion : (abiFields string).version ≠ [])
    (honly : pkgAbiStringOnlyMajorVersion (abiFields string).os = some false)
    {major minor : List Char} {third : Option (List Char)}
    (hdotted : dotted (abiFields string).version = some (major, minor, third)) :
    Treated string ↔
      (if versionNumber major = none ∧ versionNumber minor = none then
        third ≠ none && (third ≠ some ['*'] || (major = ['*'] && minor = ['*']))
      else
        !archKnown (abiFields string) || [major, minor].all fun part =>
          (versionNumber part).isSome || part = ['*']) = true := by
  have hrun := pkgAbiFromString_eq rfl hos hversion honly
  have hparts : versionParts (abiFields string) = [major, minor] := by
    unfold versionParts
    rw [honly, hdotted]
  rw [abiVersion_dotted string hdotted] at hrun
  have hpass : ∀ v : AbiVersion, v.err = false →
      pkgAbiFromString string = afterVersion string (abiFields string) v →
      (Treated string ↔ (!archKnown (abiFields string) || [major, minor].all fun part =>
        (versionNumber part).isSome || part = ['*']) = true) := by
    intro v herr hv
    rcases afterVersion_pass string (abiFields string) herr with
      ⟨hknown, arch, -, hok⟩ | ⟨hunknown, hinvalid⟩
    · rw [treated_of_ok (hv.trans hok), hparts, hknown, Bool.not_true, Bool.false_or,
        List.all_eq_true]
      exact forall_congr' fun part => forall_congr' fun _ => by
        rw [Bool.or_eq_true, decide_eq_true_iff]
    · rw [hunknown]
      exact ⟨fun _ => rfl, fun _ => treated_of_invalid (hinvalid.imp fun _ h => hv.trans h)⟩
  cases hmajor : versionNumber major with
  | some n =>
    rw [hmajor] at hrun
    rw [if_neg fun h => Option.some_ne_none n h.1]
    exact hpass ⟨some n, none, third, false⟩ rfl hrun
  | none =>
    rw [hmajor] at hrun
    cases hminor : versionNumber minor with
    | some n =>
      rw [hminor] at hrun
      rw [if_neg fun h => Option.some_ne_none n h.2]
      exact hpass ⟨none, some n, third, false⟩ rfl hrun
    | none =>
      rw [hminor] at hrun
      rw [if_pos ⟨rfl, rfl⟩]
      rcases afterVersion_refuse string (abiFields string) (v := ⟨none, none, third, true⟩) rfl with
        ⟨hnone, habort⟩ | ⟨hstar, hok⟩ | ⟨hsome, hstar, hinvalid⟩
      · have hthird : third = none := hnone
        rw [hthird]
        exact ⟨fun h => absurd h (not_treated_of_abort (hrun.trans habort)), nofun⟩
      · have hthird : third = some ['*'] := hstar
        rw [treated_of_ok (hrun.trans hok), hparts, hthird]
        constructor
        · intro hstars
          have hstarMajor := (hstars major List.mem_cons_self).resolve_left
            (by rw [hmajor]; exact Bool.false_ne_true)
          have hstarMinor := (hstars minor (List.mem_cons_of_mem _ List.mem_cons_self)).resolve_left
            (by rw [hminor]; exact Bool.false_ne_true)
          rw [hstarMajor, hstarMinor]
          rfl
        · intro hboth
          have hstars : major = ['*'] ∧ minor = ['*'] := by simpa using hboth
          intro part hpart
          rcases List.mem_pair.mp hpart with rfl | rfl
          · exact Or.inr hstars.1
          · exact Or.inr hstars.2
      · have hsome' : third ≠ none := hsome
        have hstar' : third ≠ some ['*'] := hstar
        rw [decide_eq_true hsome', decide_eq_true hstar']
        exact ⟨fun _ => rfl, fun _ => treated_of_invalid (hinvalid.imp fun _ h => hrun.trans h)⟩

theorem onlyMajor_of_concrete {os : PkgOs} (hunknown : os ≠ .unknown) (hany : os ≠ .any) :
    ∃ onlyMajor, pkgAbiStringOnlyMajorVersion os = some onlyMajor := by
  cases os with
  | unknown => exact absurd rfl hunknown
  | any => exact absurd rfl hany
  | _ => exact ⟨_, rfl⟩

theorem treated_iff (string : String) : Treated string ↔ wellTreated (abiFields string) = true := by
  unfold wellTreated
  by_cases hany : (abiFields string).os = .any
  · rw [if_pos hany, decide_eq_true_iff]
    have hnoParts : versionParts (abiFields string) = [] := by
      unfold versionParts
      rw [hany]
      rfl
    by_cases hversion : (abiFields string).version = []
    · have hos : (abiFields string).os ≠ .unknown := by
        rw [hany]
        decide
      refine ⟨fun _ => hversion, fun _ => ?_⟩
      rcases pkgAbiFromString_empty hos hversion with ⟨hok, -⟩ | hinvalid
      · refine (treated_of_ok hok).mpr ?_
        rw [hnoParts]
        exact fun part hpart => absurd hpart List.not_mem_nil
      · exact treated_of_invalid hinvalid
    · exact ⟨fun h => absurd h (not_treated_of_abort (pkgAbiFromString_any hany hversion)),
        fun h => absurd h hversion⟩
  rw [if_neg hany]
  by_cases hos : (abiFields string).os = .unknown
  · rw [hos]
    exact ⟨fun _ => rfl, fun _ => treated_of_invalid (pkgAbiFromString_unknown hos)⟩
  obtain ⟨onlyMajor, honly⟩ := onlyMajor_of_concrete hos hany
  by_cases hversion : (abiFields string).version = []
  · have hnoParts : dotted (abiFields string).version = none := by
      rw [hversion]
      rfl
    rw [honly, hnoParts]
    refine ⟨fun _ => by cases onlyMajor <;> rfl, fun _ => ?_⟩
    rcases pkgAbiFromString_empty hos hversion with ⟨-, hos'⟩ | hinvalid
    · exact absurd hos' hany
    · exact treated_of_invalid hinvalid
  rw [honly]
  cases onlyMajor with
  | true => exact ⟨fun _ => rfl, fun _ => treated_onlyMajor hos hversion honly⟩
  | false =>
    cases hdotted : dotted (abiFields string).version with
    | none =>
      refine ⟨fun _ => rfl, fun _ => treated_of_invalid ?_⟩
      rw [pkgAbiFromString_eq rfl hos hversion honly]
      exact abiVersion_undotted string hdotted
    | some parts =>
      obtain ⟨major, minor, third⟩ := parts
      exact treated_dotted hos hversion honly hdotted

/-! ## Reading back what was printed -/

structure Printable (abi : PkgAbi) : Prop where
  os : abi.os ≠ .unknown ∧ abi.os ≠ .any
  major : 1 ≤ abi.major ∧ abi.major ≤ intMax
  minor : pkgAbiStringOnlyMajorVersion abi.os = some false → 1 ≤ abi.minor ∧ abi.minor ≤ intMax
  arch : abi.arch ≠ .unknown ∧ (abi.os = .dragonfly → abi.arch = .amd64)

/-- The string is read as the ABI, with the minor version where one is printed. -/
def ReadsBack (string : String) (abi : PkgAbi) : Prop :=
  ∃ abi', pkgAbiFromString string = .ok abi' ∧ abi'.os = abi.os ∧ abi'.major = abi.major ∧
    abi'.arch = abi.arch ∧
    (pkgAbiStringOnlyMajorVersion abi.os = some false → abi'.minor = abi.minor)

theorem strsep_append {d : Char} {a : List Char} (h : d ∉ a) (b : List Char) :
    strsep (a ++ d :: b) d = (a, some b) := by
  induction a with
  | nil => exact if_pos rfl
  | cons c a ih =>
    rw [List.mem_cons, not_or] at h
    have hstep : strsep ((c :: a) ++ d :: b) d =
        (c :: (strsep (a ++ d :: b) d).1, (strsep (a ++ d :: b) d).2) :=
      if_neg fun hc => h.1 hc.symm
    rw [hstep, ih h.2]

theorem strsep_of_not_mem {d : Char} {a : List Char} (h : d ∉ a) : strsep a d = (a, none) := by
  induction a with
  | nil => rfl
  | cons c a ih =>
    rw [List.mem_cons, not_or] at h
    have hstep : strsep (c :: a) d = (c :: (strsep a d).1, (strsep a d).2) :=
      if_neg fun hc => h.1 hc.symm
    rw [hstep, ih h.2]

theorem digitChar_isDigit {d : Nat} (h : d < 10) : (Char.ofNat (48 + d)).isDigit = true ∧
    (Char.ofNat (48 + d)).toNat - '0'.toNat = d := by
  interval_cases d <;> decide

theorem decimal_digits (n : Nat) : ∀ c ∈ decimal n, c.isDigit = true := by
  unfold decimal
  split
  · intro c hc
    rw [List.mem_singleton.mp hc]
    rfl
  · intro c hc
    obtain ⟨d, hd, rfl⟩ := List.mem_map.mp hc
    exact (digitChar_isDigit (printDigits_lt (by decide) hd)).1

theorem leadingNumber_decimal (n : Nat) : leadingNumber (decimal n) = n := by
  unfold leadingNumber
  rw [List.takeWhile_eq_self_iff.mpr (decimal_digits n)]
  unfold decimal
  split
  · next hzero =>
    rw [hzero]
    rfl
  · rw [List.foldl_map]
    refine Eq.trans (List.foldl_ext _ (fun n d => n * 10 + d) 0 fun a d hd => ?_)
      (readDigits_printDigits 10 n)
    rw [(digitChar_isDigit (printDigits_lt (by decide) hd)).2, Nat.mul_comm]

theorem decimal_ne_nil (n : Nat) : decimal n ≠ [] := by
  intro hnil
  have hzero := leadingNumber_decimal n
  rw [hnil] at hzero
  have hn : n = 0 := hzero.symm
  rw [hn] at hnil
  exact absurd hnil (by decide)

theorem versionNumber_decimal {n : Nat} (h : 1 ≤ n) (hmax : (n : Int) ≤ intMax) :
    versionNumber (decimal n) = some (n : Int) := by
  have hdigits := decimal_digits n
  cases hd : decimal n with
  | nil => exact absurd hd (decimal_ne_nil n)
  | cons c rest =>
    have hc : c.isDigit = true := hdigits c (by rw [hd]; exact List.mem_cons_self)
    have hspace : isspace c = false := by
      have hge : 48 ≤ c.toNat := (UInt32.le_iff_toNat_le.mp (of_decide_eq_true
        (Bool.and_eq_true_iff.mp hc).1))
      unfold isspace
      rw [Bool.or_eq_false_iff, Bool.and_eq_false_iff, decide_eq_false_iff_not,
        decide_eq_false_iff_not, decide_eq_false_iff_not]
      refine ⟨?_, Or.inr (by omega)⟩
      rintro rfl
      exact absurd hc (by decide)
    have hplus : c ≠ '+' := by
      rintro rfl
      exact absurd hc (by decide)
    have hminus : c ≠ '-' := by
      rintro rfl
      exact absurd hc (by decide)
    unfold versionNumber strtonum
    rw [List.dropWhile_cons_of_neg (by rw [hspace]; exact Bool.false_ne_true)]
    have hnumber : leadingNumber (c :: rest) = n := by rw [← hd, leadingNumber_decimal]
    have hall : (c :: rest).all Char.isDigit = true := by
      rw [← hd]
      exact List.all_eq_true.mpr hdigits
    dsimp only
    split
    · next heq => exact absurd (List.cons.inj heq).1 hplus
    · next heq => exact absurd (List.cons.inj heq).1 hminus
    · rw [if_neg Bool.false_ne_true, hnumber]
      refine if_pos ⟨List.cons_ne_nil c rest, hall, ?_, hmax⟩
      exact Int.ofNat_le.mpr h

theorem os_printed {os : PkgOs} (hunknown : os ≠ .unknown) :
    pkgOsFromString (pkgOsToString os) = os ∧ ':' ∉ (pkgOsToString os).toList := by
  cases os with
  | unknown => exact absurd rfl hunknown
  | _ => exact ⟨by decide +kernel, by decide +kernel⟩

theorem arch_printed {os : PkgOs} {arch : PkgArch} (hos : os ≠ .unknown ∧ os ≠ .any)
    (harch : arch ≠ .unknown) : pkgArchFromString os (pkgArchToString os arch) = arch := by
  obtain ⟨hunknown, hany⟩ := hos
  cases os with
  | unknown => exact absurd rfl hunknown
  | any => exact absurd rfl hany
  | _ =>
    cases arch with
    | unknown => exact absurd rfl harch
    | _ => decide +kernel

theorem not_mem_decimal {c : Char} (hc : c.isDigit = false) (n : Nat) : c ∉ decimal n :=
  fun hmem => Bool.false_ne_true (hc.symm.trans (decimal_digits n c hmem))

theorem abiFields_printed {os : List Char} (hos : ':' ∉ os) {version : List Char}
    (hversion : ':' ∉ version) (arch : List Char) :
    abiFields (String.ofList (os ++ ':' :: (version ++ ':' :: arch))) =
      { os := pkgOsFromString (String.ofList os), version := version, arch := some arch } := by
  unfold abiFields
  rw [String.toList_ofList, strsep_append hos]
  dsimp only
  rw [Option.getD_some, strsep_append hversion]

theorem afterVersion_printed (string : String) {abi : PkgAbi} (h : Printable abi)
    (version : List Char) {v : AbiVersion} (hv : v.err = false) :
    afterVersion string
        { os := abi.os, version := version
          arch := some (pkgArchToString abi.os abi.arch).toList } v =
      .ok { os := abi.os, major := v.major.getD 0, minor := v.minor.getD 0, arch := abi.arch } := by
  have harch := arch_printed h.os h.arch.1
  have hknown : archKnown { os := abi.os, version := version
                            arch := some (pkgArchToString abi.os abi.arch).toList } = true := by
    unfold archKnown
    dsimp only
    rw [String.ofList_toList, harch, decide_eq_true h.arch.1, Bool.true_and, Bool.or_eq_true,
      decide_eq_true_iff, decide_eq_true_iff]
    exact (em (abi.os = .dragonfly)).symm.imp id h.arch.2
  rcases afterVersion_pass string _ hv with ⟨-, arch, hsome, hok⟩ | ⟨hunknown, -⟩
  · rw [hok, ← Option.some.inj hsome, String.ofList_toList, harch]
  · exact absurd (hknown.symm.trans hunknown) (by decide)

theorem readsBack_iff {abi : PkgAbi} (h : Printable abi) :
    ∃ string, pkgAbiToString abi = some string ∧
      (ReadsBack string abi ↔ pkgAbiStringOnlyMajorVersion abi.os = some true) := by
  obtain ⟨onlyMajor, honly⟩ := onlyMajor_of_concrete h.os.1 h.os.2
  obtain ⟨major, hmajor⟩ := Int.eq_ofNat_of_zero_le (by have := h.major.1; omega : 0 ≤ abi.major)
  have hnumber : versionNumber (decimal major) = some (major : Int) :=
    versionNumber_decimal (by have := h.major.1; omega) (by rw [← hmajor]; exact h.major.2)
  obtain ⟨hosString, hcolon⟩ := os_printed h.os.1
  have hmajorColon : ':' ∉ decimal major := not_mem_decimal rfl major
  -- the string for a version text, and what is read of it
  have hread : ∀ (version : List Char) (v : AbiVersion) (string : String), ':' ∉ version →
      version ≠ [] → v.err = false →
      string = String.ofList ((pkgOsToString abi.os).toList ++ ':' ::
        (version ++ ':' :: (pkgArchToString abi.os abi.arch).toList)) →
      abiVersion onlyMajor string version = .ok v → pkgAbiFromString string =
        .ok { os := abi.os, major := v.major.getD 0, minor := v.minor.getD 0, arch := abi.arch } := by
    intro version v string hno hne herr hstring hv
    have hfields : abiFields string = { os := abi.os, version := version,
                                        arch := some (pkgArchToString abi.os abi.arch).toList } := by
      rw [hstring, abiFields_printed hcolon hno, String.ofList_toList, hosString]
    rw [pkgAbiFromString_eq hfields h.os.1 hne honly]
    dsimp only
    rw [hv]
    exact afterVersion_printed string h version herr
  cases onlyMajor with
  | true =>
    have hprint : pkgAbiToString abi = some (String.ofList ((pkgOsToString abi.os).toList ++ ':' ::
        (decimal major ++ ':' :: (pkgArchToString abi.os abi.arch).toList))) := by
      unfold pkgAbiToString
      rw [honly, hmajor, Option.map_some, if_pos rfl, List.append_nil]
      rfl
    refine ⟨_, hprint, fun _ => honly, fun _ => ?_⟩
    refine ⟨_, hread (decimal major) ⟨some major, none, some (decimal major), false⟩ _ hmajorColon
      (decimal_ne_nil major) rfl rfl ?_, rfl, hmajor.symm, rfl, fun hfalse => ?_⟩
    · unfold versionNumber at hnumber
      unfold abiVersion
      rw [if_pos rfl, hnumber]
      rfl
    · rw [honly] at hfalse
      exact absurd hfalse (by decide)
  | false =>
    have hminorRange := h.minor honly
    obtain ⟨minor, hminor⟩ := Int.eq_ofNat_of_zero_le (by omega : 0 ≤ abi.minor)
    have hprint : pkgAbiToString abi = some (String.ofList ((pkgOsToString abi.os).toList ++ ':' ::
        ((decimal major ++ '.' :: decimal minor) ++
          ':' :: (pkgArchToString abi.os abi.arch).toList))) := by
      unfold pkgAbiToString
      rw [honly, hmajor, hminor, Option.map_some, if_neg Bool.false_ne_true]
      rfl
    have hno : ':' ∉ decimal major ++ '.' :: decimal minor := by
      rw [List.mem_append, List.mem_cons, not_or, not_or]
      exact ⟨hmajorColon, by decide, not_mem_decimal rfl minor⟩
    have hdotted : dotted (decimal major ++ '.' :: decimal minor) =
        some (decimal major, decimal minor, none) := by
      unfold dotted
      rw [strsep_append (not_mem_decimal rfl major)]
      dsimp only
      rw [strsep_of_not_mem (not_mem_decimal rfl minor)]
    refine ⟨_, hprint, ?_, fun htrue => ?_⟩
    · rintro ⟨abi', hok, -, -, -, hsame⟩
      have hrun := hread (decimal major ++ '.' :: decimal minor) ⟨some major, none, none, false⟩ _
        hno (List.append_ne_nil_of_left_ne_nil (decimal_ne_nil major) _) rfl rfl (by
          rw [abiVersion_dotted _ hdotted, hnumber])
      rw [hrun] at hok
      have hzero : abi'.minor = 0 := by
        rw [← Except.ok.inj hok]
        rfl
      have hminorEq := hsame honly
      omega
    · rw [honly] at htrue
      exact absurd htrue (by decide)

/-- Which strings are treated well, and which ABIs are read back from what was printed. -/
theorem pkgAbiFromString_iff (string : String) (abi : PkgAbi) (h : Printable abi) :
    (Treated string ↔ wellTreated (abiFields string) = true) ∧
      ∃ printed, pkgAbiToString abi = some printed ∧
        (ReadsBack printed abi ↔ pkgAbiStringOnlyMajorVersion abi.os = some true) :=
  ⟨treated_iff string, readsBack_iff h⟩

/-- An ABI of NextBSD, and a string with one dot too many. -/
theorem pkgAbiFromString_iff_nextbsd :
    (Treated "Linux:1.2.3:x86_64" ↔ wellTreated (abiFields "Linux:1.2.3:x86_64") = true) ∧
      ∃ printed, pkgAbiToString { os := .nextbsd, major := 27, arch := .amd64 } = some printed ∧
        (ReadsBack printed { os := .nextbsd, major := 27, arch := .amd64 } ↔
          pkgAbiStringOnlyMajorVersion .nextbsd = some true) :=
  pkgAbiFromString_iff "Linux:1.2.3:x86_64" { os := .nextbsd, major := 27, arch := .amd64 }
    ⟨by decide, by decide, by decide, by decide⟩

/-- A failed assertion, a comparison with a null pointer, a minor version that is not read, and one
that is not a number. -/
theorem pkgAbiFromString_traps :
    pkgAbiFromString "*:1" = .error .abort ∧
      pkgAbiFromString "Linux:a.b:x86_64" = .error .abort ∧
      pkgAbiFromString "Linux:1.2:x86_64" =
        .ok { os := .linux, major := 1, minor := 0, arch := .amd64 } ∧
      pkgAbiFromString "Linux:1.x:x86_64" =
        .ok { os := .linux, major := 1, minor := 0, arch := .amd64 } ∧
      ¬ ((∀ string, Treated string) ∧ ∀ abi, Printable abi →
        ∃ string, pkgAbiToString abi = some string ∧ ReadsBack string abi) := by
  have habort : pkgAbiFromString "*:1" = .error .abort := by decide +kernel
  refine ⟨habort, by decide +kernel, by decide +kernel, by decide +kernel, ?_⟩
  rintro ⟨hstrings, -⟩
  exact not_treated_of_abort habort (hstrings "*:1")

end NextBSD.Libpkg.AbiText
