import NextBSD.Libpkg.Audit
import NextBSD.Libpkg.Manifest.Types

/-!
# Version ranges of OSV entries

`pkg_osvf_parse_ranges` and what it makes of an OSV document, with the bounds as
`pkg_audit_version_match` tests them.
-/

namespace NextBSD.Libpkg.Osvf

open Manifest (Bytes Ucl ascii)

inductive EventType where
  | unknown
  | introduced
  | fixed
  | lastAffected
  | limit
  deriving DecidableEq, Repr

inductive RangeType where
  | unknown
  | semver
  | ecosystem
  | git
  deriving DecidableEq, Repr

/-- `struct pkg_audit_version` with its OSV type. -/
structure Version where
  audit : AuditVersion := { version := none, type := .none }
  osvType : EventType := .unknown
  deriving DecidableEq, Repr

/-- `struct pkg_audit_versions_range`, all zero at first. -/
structure VersionsRange where
  v1 : Version := {}
  v2 : Version := {}
  type : RangeType := .unknown
  deriving DecidableEq, Repr

def text (s : Bytes) : String := String.ofList (s.map (fun c => Char.ofNat c.toNat))

def findKey : Ucl → Bytes → Option Ucl
  | .object entries, key => entries.lookup key
  | _, _ => none

def uclString (obj : Ucl) (key : Bytes) : Bytes :=
  match findKey obj key with
  | some (.string s) => s
  | _ => []

def getEvent (eventType : Bytes) : RangeType :=
  if eventType = ascii "SEMVER" then .semver
  else if eventType = ascii "ECOSYSTEM" then .ecosystem
  else if eventType = ascii "GIT" then .git
  else .unknown

def parseEvent (range : VersionsRange) (cur : Ucl) : VersionsRange :=
  if (findKey cur (ascii "fixed")).isSome then
    { range with
      v2 :=
        { audit := { version := some (text (uclString cur (ascii "fixed"))), type := .lte }
          osvType := .fixed } }
  else if (findKey cur (ascii "introduced")).isSome then
    { range with
      v1 :=
        { audit := { version := some (text (uclString cur (ascii "introduced"))), type := .gte }
          osvType := .introduced } }
  else range

def parseEvents (range : VersionsRange) (eventArray : Option Ucl) (type : Bytes) : VersionsRange :=
  match eventArray with
  | some (.array elems) => elems.foldl parseEvent { range with type := getEvent type }
  | _ => range

def parseRange (cur : Ucl) : VersionsRange :=
  match findKey cur (ascii "events") with
  | some (.array elems) => parseEvents {} (some (.array elems)) (uclString cur (ascii "type"))
  | _ => {}

def pkgOsvfParseRanges (rangeArray : Option Ucl) : List VersionsRange :=
  match rangeArray with
  | some (.array elems) => elems.map parseRange
  | _ => []

/-- Both bounds, as `pkg_audit_is_vulnerable` tests them. -/
def VersionsRange.contains (range : VersionsRange) (version : String) : Bool :=
  auditVersionMatch version range.v1.audit && auditVersionMatch version range.v2.audit

inductive OsvEvent where
  | introduced (version : Bytes)
  | fixed (version : Bytes)
  deriving DecidableEq, Repr

def OsvEvent.version : OsvEvent → Bytes
  | .introduced version => version
  | .fixed version => version

structure OsvRange where
  type : Bytes
  events : List OsvEvent
  deriving DecidableEq, Repr

def OsvEvent.toUcl : OsvEvent → Ucl
  | .introduced version => .object [(ascii "introduced", .string version)]
  | .fixed version => .object [(ascii "fixed", .string version)]

def OsvRange.toUcl (range : OsvRange) : Ucl :=
  .object [(ascii "type", .string range.type),
    (ascii "events", .array (range.events.map OsvEvent.toUcl))]

def rangesUcl (ranges : List OsvRange) : Option Ucl := some (.array (ranges.map OsvRange.toUcl))

def introducedVersions (events : List OsvEvent) : List Bytes :=
  events.filterMap (fun e => match e with | .introduced version => some version | .fixed _ => none)

def fixedVersions (events : List OsvEvent) : List Bytes :=
  events.filterMap (fun e => match e with | .introduced _ => none | .fixed version => some version)

def LatestIntroduced (events : List OsvEvent) (version : String) : Prop :=
  ∃ i ∈ introducedVersions events, versionCmp (text i) version ≤ 0 ∧
    ∀ e ∈ events, versionCmp (text e.version) version ≤ 0 →
      versionCmp (text e.version) (text i) ≤ 0

def Distinct (events : List OsvEvent) : Prop :=
  events.Pairwise (fun e e' => versionCmp (text e.version) (text e'.version) ≠ 0)

/-! ## What is parsed -/

def lastBound (type : AuditOp) (osvType : EventType) (versions : List Bytes) (bound : Version) :
    Version :=
  match versions.getLast? with
  | none => bound
  | some version =>
    { audit := { version := some (text version), type := type }, osvType := osvType }

theorem lastBound_cons (type : AuditOp) (osvType : EventType) (version : Bytes)
    (versions : List Bytes) (bound : Version) :
    lastBound type osvType versions
        { audit := { version := some (text version), type := type }, osvType := osvType } =
      lastBound type osvType (version :: versions) bound := by
  unfold lastBound
  rw [List.getLast?_cons]
  cases versions.getLast? with
  | none => rfl
  | some last => rfl

theorem foldl_parseEvent (events : List OsvEvent) (range : VersionsRange) :
    (events.map OsvEvent.toUcl).foldl parseEvent range =
      { range with
        v1 := lastBound .gte .introduced (introducedVersions events) range.v1
        v2 := lastBound .lte .fixed (fixedVersions events) range.v2 } := by
  induction events generalizing range with
  | nil => rfl
  | cons e events ih =>
    rw [List.map_cons, List.foldl_cons]
    cases e with
    | introduced version =>
      have hstep : parseEvent range (OsvEvent.introduced version).toUcl =
          { range with
            v1 :=
              { audit := { version := some (text version), type := .gte }
                osvType := .introduced } } := rfl
      have hintroduced : introducedVersions (.introduced version :: events) =
        version :: introducedVersions events := rfl
      have hfixed : fixedVersions (.introduced version :: events) = fixedVersions events := rfl
      rw [hstep, ih, hintroduced, hfixed, ← lastBound_cons]
    | fixed version =>
      have hstep : parseEvent range (OsvEvent.fixed version).toUcl =
          { range with
            v2 :=
              { audit := { version := some (text version), type := .lte }
                osvType := .fixed } } := rfl
      have hintroduced : introducedVersions (.fixed version :: events) =
        introducedVersions events := rfl
      have hfixed : fixedVersions (.fixed version :: events) =
        version :: fixedVersions events := rfl
      rw [hstep, ih, hintroduced, hfixed, ← lastBound_cons]

theorem parseRange_toUcl (range : OsvRange) :
    parseRange range.toUcl =
      { v1 := lastBound .gte .introduced (introducedVersions range.events) {}
        v2 := lastBound .lte .fixed (fixedVersions range.events) {}
        type := getEvent range.type } := by
  have hparse : parseRange range.toUcl =
    (range.events.map OsvEvent.toUcl).foldl parseEvent { type := getEvent range.type } := rfl
  rw [hparse, foldl_parseEvent]

theorem versionCmp_cases (a b : String) :
    versionCmp a b = -1 ∨ versionCmp a b = 0 ∨ versionCmp a b = 1 := by
  rw [versionCmp_eq]
  cases compareVersions (splitVersion a.toList) (splitVersion b.toList) with
  | lt => exact Or.inl rfl
  | eq => exact Or.inr (Or.inl rfl)
  | gt => exact Or.inr (Or.inr rfl)

theorem auditVersionMatch_some (version bound : String) (type : AuditOp) :
    auditVersionMatch version { version := some bound, type := type } = true ↔
      (versionCmp version bound < 0 ∧ (type = .lt ∨ type = .lte)) ∨
        (versionCmp version bound = 0 ∧ (type = .eq ∨ type = .lte ∨ type = .gte)) ∨
        (0 < versionCmp version bound ∧ (type = .gt ∨ type = .gte)) := by
  have hcmp : pkgVersionCmp (version.length + bound.length) version bound =
      some (versionCmp version bound) := by
    rw [pkgVersionCmp_eq (Nat.le_refl _), versionCmp_eq]
  unfold auditVersionMatch
  simp only [hcmp]
  rcases versionCmp_cases version bound with h | h | h
  · rw [h]
    simp
  · rw [h]
    simp [or_assoc]
  · rw [h]
    simp

theorem lastBound_gte (versions : List Bytes) (hone : versions.length ≤ 1) (version : String) :
    auditVersionMatch version (lastBound .gte .introduced versions {}).audit = true ↔
      ∀ i ∈ versions, 0 ≤ versionCmp version (text i) := by
  match versions, hone with
  | [], _ => exact ⟨fun _ i hi => absurd hi List.not_mem_nil, fun _ => rfl⟩
  | [i], _ =>
    rw [List.forall_mem_singleton]
    refine (auditVersionMatch_some version (text i) .gte).trans ?_
    simp only [reduceCtorEq, or_self, and_false, false_or, or_true, and_true]
    omega

theorem lastBound_lte (versions : List Bytes) (hone : versions.length ≤ 1) (version : String) :
    auditVersionMatch version (lastBound .lte .fixed versions {}).audit = true ↔
      ∀ f ∈ versions, versionCmp version (text f) ≤ 0 := by
  match versions, hone with
  | [], _ => exact ⟨fun _ f hf => absurd hf List.not_mem_nil, fun _ => rfl⟩
  | [f], _ =>
    rw [List.forall_mem_singleton]
    refine (auditVersionMatch_some version (text f) .lte).trans ?_
    simp only [reduceCtorEq, or_true, or_false, and_true, and_false]
    omega

def OneInterval (range : OsvRange) : Prop :=
  (introducedVersions range.events).length ≤ 1 ∧ (fixedVersions range.events).length ≤ 1

theorem contains_parseRange {range : OsvRange} (hone : OneInterval range) (version : String) :
    (parseRange range.toUcl).contains version = true ↔
      (∀ i ∈ introducedVersions range.events, 0 ≤ versionCmp version (text i)) ∧
        ∀ f ∈ fixedVersions range.events, versionCmp version (text f) ≤ 0 := by
  rw [parseRange_toUcl]
  unfold VersionsRange.contains
  rw [Bool.and_eq_true, lastBound_gte _ hone.1, lastBound_lte _ hone.2]

theorem mem_introducedVersions {events : List OsvEvent} {i : Bytes} :
    i ∈ introducedVersions events ↔ .introduced i ∈ events := by
  unfold introducedVersions
  rw [List.mem_filterMap]
  constructor
  · rintro ⟨e, he, heq⟩
    cases e with
    | introduced version => rwa [← Option.some.inj heq]
    | fixed version => exact absurd heq (Option.some_ne_none i).symm
  · exact fun h => ⟨_, h, rfl⟩

theorem mem_fixedVersions {events : List OsvEvent} {f : Bytes} :
    f ∈ fixedVersions events ↔ .fixed f ∈ events := by
  unfold fixedVersions
  rw [List.mem_filterMap]
  constructor
  · rintro ⟨e, he, heq⟩
    cases e with
    | introduced version => exact absurd heq (Option.some_ne_none f).symm
    | fixed version => rwa [← Option.some.inj heq]
  · exact fun h => ⟨_, h, rfl⟩

/-- The range has an introduced event, and what is fixed is fixed at a later version. -/
def FixedLater (range : OsvRange) : Prop :=
  introducedVersions range.events ≠ [] ∧ ∀ i ∈ introducedVersions range.events,
    ∀ f ∈ fixedVersions range.events, versionCmp (text i) (text f) < 0

/-- In a range that is fixed later the bounds hold from the introduced version up to the fixed one,
which is itself still inside. -/
theorem bounds_iff_latest {range : OsvRange} (hone : OneInterval range) (hlater : FixedLater range)
    (version : String) :
    ((∀ i ∈ introducedVersions range.events, 0 ≤ versionCmp version (text i)) ∧
        ∀ f ∈ fixedVersions range.events, versionCmp version (text f) ≤ 0) ↔
      LatestIntroduced range.events version ∨
        ∃ f ∈ fixedVersions range.events, versionCmp version (text f) = 0 := by
  obtain ⟨i, hi⟩ := List.exists_mem_of_ne_nil _ hlater.1
  have honly : ∀ j ∈ introducedVersions range.events, j = i := by
    intro j hj
    obtain ⟨k, hk⟩ := List.length_eq_one_iff.mp
      (Nat.le_antisymm hone.1 (List.length_pos_iff.mpr hlater.1))
    rw [hk, List.mem_singleton] at hi hj
    rw [hi, hj]
  have hfixed : ∀ f ∈ fixedVersions range.events, ∀ g ∈ fixedVersions range.events, g = f := by
    intro f hf g hg
    obtain ⟨k, hk⟩ := List.length_eq_one_iff.mp
      (Nat.le_antisymm hone.2 (List.length_pos_iff.mpr (List.ne_nil_of_mem hf)))
    rw [hk, List.mem_singleton] at hf hg
    rw [hf, hg]
  have hswap := versionCmp_swap version (text i)
  constructor
  · rintro ⟨hlow, hhigh⟩
    have hiv := hlow i hi
    by_cases hend : ∃ f ∈ fixedVersions range.events, versionCmp version (text f) = 0
    · exact Or.inr hend
    · refine Or.inl ⟨i, hi, by omega, ?_⟩
      intro e he hev
      cases e with
      | introduced j =>
        rw [honly j (mem_introducedVersions.mpr he)]
        exact (versionCmp_self (text i)).le
      | fixed f =>
        have hf := mem_fixedVersions.mpr he
        have hvf := hhigh f hf
        have hfv := versionCmp_swap version (text f)
        have hnot : versionCmp version (text f) ≠ 0 := fun heq => hend ⟨f, hf, heq⟩
        have hle : versionCmp (text f) version ≤ 0 := hev
        omega
  · rintro (⟨j, hj, hjv, hlatest⟩ | ⟨f, hf, hvf⟩)
    · rw [honly j hj] at hjv hlatest
      refine ⟨fun k hk => ?_, fun f hf => ?_⟩
      · rw [honly k hk]
        omega
      · -- A fixed event at or before the version would be a later one.
        by_contra hlt
        have hfv := versionCmp_swap version (text f)
        have hlate := hlatest (.fixed f) (mem_fixedVersions.mp hf)
          (show versionCmp (text f) version ≤ 0 by omega)
        have hif := hlater.2 i hi f hf
        have hfi := versionCmp_swap (text i) (text f)
        have hle : versionCmp (text f) (text i) ≤ 0 := hlate
        omega
    · have hif := hlater.2 i hi f hf
      have hfv := versionCmp_swap version (text f)
      have hiv : versionCmp (text i) version ≤ 0 :=
        versionCmp_trans (b := text f) (by omega) (by omega)
      refine ⟨fun k hk => ?_, fun g hg => ?_⟩
      · rw [honly k hk]
        omega
      · rw [hfixed f hf g hg]
        omega

theorem exists_contains_iff {ranges : List OsvRange} (hone : ∀ r ∈ ranges, OneInterval r)
    (version : String) :
    (∃ r ∈ pkgOsvfParseRanges (rangesUcl ranges), r.contains version = true) ↔
      ∃ r ∈ ranges, (∀ i ∈ introducedVersions r.events, 0 ≤ versionCmp version (text i)) ∧
        ∀ f ∈ fixedVersions r.events, versionCmp version (text f) ≤ 0 := by
  have hparse : pkgOsvfParseRanges (rangesUcl ranges) =
    (ranges.map OsvRange.toUcl).map parseRange := rfl
  rw [hparse]
  constructor
  · rintro ⟨r, hr, hcontains⟩
    obtain ⟨obj, hobj, rfl⟩ := List.mem_map.mp hr
    obtain ⟨range, hrange, rfl⟩ := List.mem_map.mp hobj
    exact ⟨range, hrange, (contains_parseRange (hone range hrange) version).mp hcontains⟩
  · rintro ⟨range, hrange, hbounds⟩
    exact ⟨parseRange range.toUcl, List.mem_map_of_mem (List.mem_map_of_mem hrange),
      (contains_parseRange (hone range hrange) version).mpr hbounds⟩

def fixedRange : OsvRange where
  type := ascii "SEMVER"
  events := [.introduced (ascii "1.0"), .fixed (ascii "2.0")]

end NextBSD.Libpkg.Osvf
