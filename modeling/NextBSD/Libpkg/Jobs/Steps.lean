import Mathlib.Logic.Relation
import NextBSD.Libpkg.Jobs.Process

/-!
# What processing a package does to the universe

Everything that `processItem` does to the items is one of three steps: it adds a
package, it loads more of one, or it marks one as processed.  `UniverseStep` says which
packages can be added and in which states, so that an invariant of the universe is
proved once for each step and not along the recursion.
-/

namespace NextBSD.Libpkg

open Program

def Pkg.basic (p : Pkg) : Pkg :=
  { type := p.type, name := p.name, uid := p.uid, version := p.version, abi := p.abi
    reponame := p.reponame, locked := p.locked, automatic := p.automatic, vital := p.vital }

theorem basic_ensureLoadedCommon (env : UniverseEnv) (p : Pkg) :
    (ensureLoadedCommon env p).basic = p.basic := by
  rw [ensureLoadedCommon]
  split
  · split <;> rfl
  · rfl

theorem basic_ensureLoaded (env : UniverseEnv) (p : Pkg) :
    (ensureLoaded env p).basic = p.basic := by
  rw [← basic_ensureLoadedCommon env p, ensureLoaded]
  split
  · split <;> rfl
  · rfl

theorem basic_pkgValidate (env : UniverseEnv) (p : Pkg) : (pkgValidate env p).basic = p.basic := by
  rw [pkgValidate]
  split
  · exact basic_ensureLoadedCommon env p
  · rfl

theorem digest_ensureLoadedCommon (env : UniverseEnv) (p : Pkg) :
    (ensureLoadedCommon env p).digest = p.digest := by
  rw [ensureLoadedCommon]
  split
  · split <;> rfl
  · rfl

theorem digest_ensureLoaded (env : UniverseEnv) (p : Pkg) :
    (ensureLoaded env p).digest = p.digest := by
  rw [← digest_ensureLoadedCommon env p, ensureLoaded]
  split
  · split <;> rfl
  · rfl

section
variable {p q : Pkg} (h : q.basic = p.basic)
include h

theorem type_of_basic : q.type = p.type := by
  have hfield : q.basic.type = p.basic.type := by rw [h]
  exact hfield

theorem name_of_basic : q.name = p.name := by
  have hfield : q.basic.name = p.basic.name := by rw [h]
  exact hfield

theorem foreign_of_basic : nextbsdForeignPkg q = nextbsdForeignPkg p := by
  have hrepo : q.basic.reponame = p.basic.reponame := by rw [h]
  have hrepo : q.reponame = p.reponame := hrepo
  rw [nextbsdForeignPkg, type_of_basic h, name_of_basic h, hrepo, nextbsdForeignPkg]

end

theorem find_update (u : JobsUniverse) (ref : ItemRef) (f : UniverseItem → UniverseItem)
    (uid : String) :
    (u.update ref f).find uid =
      (u.find uid).map fun chain => if uid = ref.uid then chain.modify ref.place f else chain :=
  Assoc.lookup_map
    (fun k (chain : List UniverseItem) => if k = ref.uid then chain.modify ref.place f else chain)
    u.items uid

theorem find_push (u : JobsUniverse) (pkg : Pkg) (digest uid : String) :
    (u.push pkg digest).find uid =
      if uid = pkg.uid then some ((u.find pkg.uid).getD [] ++ [{ pkg := pkg }]) else u.find uid := by
  have hlookup := Assoc.lookup_upsert u.items pkg.uid [{ pkg := pkg }] (fun chain => chain ++ [{ pkg := pkg }]) uid
  refine hlookup.trans ?_
  by_cases huid : uid = pkg.uid
  · rw [if_pos huid, if_pos huid, JobsUniverse.find]
    cases u.items.lookup pkg.uid <;> rfl
  · rw [if_neg huid, if_neg huid]
    rfl

theorem itemAt_update (u : JobsUniverse) (ref : ItemRef) (f : UniverseItem → UniverseItem)
    (r : ItemRef) :
    (u.update ref f).itemAt r = (u.itemAt r).map fun item => if r = ref then f item else item := by
  rw [JobsUniverse.itemAt, find_update, JobsUniverse.itemAt]
  cases hfind : u.find r.uid with
  | none => rfl
  | some chain =>
    simp only [Option.map_some, Option.bind_some]
    by_cases huid : r.uid = ref.uid
    · rw [if_pos huid, List.getElem?_modify]
      have href : (ref.place = r.place) ↔ r = ref := by
        constructor
        · intro hplace
          cases r
          cases ref
          simp_all
        · intro h
          rw [h]
      by_cases h : r = ref
      · simp [h]
      · simp [h, mt href.mp h]
    · have h : r ≠ ref := fun h => huid (h ▸ rfl)
      simp [huid, h]

theorem itemAt_push {u : JobsUniverse} {pkg : Pkg} {digest : String} {r : ItemRef}
    {item : UniverseItem} (h : u.itemAt r = some item) :
    (u.push pkg digest).itemAt r = some item := by
  obtain ⟨chain, hchain, hplace⟩ := Option.bind_eq_some_iff.mp h
  rw [JobsUniverse.itemAt, find_push]
  by_cases huid : r.uid = pkg.uid
  · rw [if_pos huid, ← huid, hchain, Option.bind_some, Option.getD_some]
    obtain ⟨hlt, -⟩ := List.getElem?_eq_some_iff.mp hplace
    rw [List.getElem?_append_left hlt]
    exact hplace
  · rw [if_neg huid, hchain]
    exact hplace

theorem itemAt_push_self (u : JobsUniverse) (pkg : Pkg) (digest : String) :
    (u.push pkg digest).itemAt { uid := pkg.uid, place := ((u.find pkg.uid).getD []).length } =
      some { pkg := pkg } := by
  rw [JobsUniverse.itemAt, find_push, if_pos rfl]
  simp

theorem findSame_spec {u : JobsUniverse} {pkg : Pkg} {digest : String} {ref : ItemRef}
    (h : u.findSame pkg digest = some ref) :
    ∃ item, u.itemAt ref = some item ∧ samePackage pkg item = true := by
  simp only [JobsUniverse.findSame, Option.bind_eq_bind, Option.bind_eq_some_iff,
    Option.pure_def, Option.some.injEq] at h
  obtain ⟨uid, -, chain, hchain, place, hplace, rfl⟩ := h
  obtain ⟨hlt, hsame, -⟩ := List.findIdx?_eq_some_iff_getElem.mp hplace
  refine ⟨chain[place], ?_, hsame⟩
  rw [JobsUniverse.itemAt, hchain, Option.bind_some]
  exact List.getElem?_eq_getElem hlt

def Present (u : JobsUniverse) (p : Pkg) : Prop :=
  ∃ ref item, u.itemAt ref = some item ∧ item.pkg.type = p.type ∧ item.pkg.digest = p.digest ∧
    p.digest ≠ none

/-- A remote package of that uid does not come before the installed one: the uid has a
chain, or it is not installed, or the installed package is in the universe. -/
def Anchored (env : UniverseEnv) (u : JobsUniverse) (uid : String) : Prop :=
  env.type = .fetch ∨ env.localPkg uid = none ∨ (u.find uid).isSome ∨
    ∃ p, env.localPkg uid = some p ∧ Present u (pkgValidate env p)

structure RemotePkg (env : UniverseEnv) (uid : String) (p : Pkg) : Prop where
  remote : p.type ≠ .installed
  notForeign : nextbsdForeignPkg p = false
  uid : p.uid = uid ∨ ∃ row ∈ (env.repoQuery uid).getD [], p.uid = row.uid

/-- A row of a local query for a provider, perhaps with a digest computed for it. -/
def ProviderPkg (env : UniverseEnv) (p : Pkg) : Prop :=
  ∃ name isShlib digest, ∃ row ∈
    ((if isShlib then env.queryShlibProvide name else env.queryProvide name).getD []),
    p = { providerRow isShlib row with digest }

theorem ProviderPkg.digest {env : UniverseEnv} {p : Pkg} (h : ProviderPkg env p)
    (digest : Option String) : ProviderPkg env { p with digest } := by
  obtain ⟨name, isShlib, _, row, hrow, rfl⟩ := h
  exact ⟨name, isShlib, digest, row, hrow, rfl⟩

/-- Why a provider row was not skipped as one more copy of the installed package. -/
def NotSkipped (env : UniverseEnv) (u : JobsUniverse) (p : Pkg) : Prop :=
  (∃ unit, (u.find p.uid).bind List.head? = some unit ∧
    ¬(unit.pkg.type = .installed ∧ remoteShouldSkip unit.pkg p = true)) ∨
  (∃ npkg, env.localPkg p.uid = some npkg ∧
    remoteShouldSkip (pkgValidate env npkg) p = false) ∨
  env.localPkg p.uid = none

/-- The packages that `addPkg` is called with; `Given` are those the caller supplies. -/
inductive Admitted (env : UniverseEnv) (Given : Pkg → Prop) (u : JobsUniverse) : Pkg → Prop where
  | given {p : Pkg} (given : Given p) : Admitted env Given u p
  | installed {uid : String} {p : Pkg} (row : env.localPkg uid = some p) : Admitted env Given u p
  | remote {uid : String} {p : Pkg} (row : RemotePkg env uid p) (anchored : Anchored env u uid) :
      Admitted env Given u p
  | provider {p : Pkg} (row : ProviderPkg env p) (notSkipped : NotSkipped env u p) :
      Admitted env Given u p

inductive UniverseStep (env : UniverseEnv) (Given : Pkg → Prop) :
    JobsUniverse → JobsUniverse → Prop where
  | push {u : JobsUniverse} {p : Pkg} {digest : String} (admitted : Admitted env Given u p)
      (hdigest : (pkgValidate env p).digest = some digest)
      (unseen : u.findSame (pkgValidate env p) digest = none) (unlocked : p.locked = false) :
      UniverseStep env Given u (u.push (pkgValidate env p) digest)
  | load {u : JobsUniverse} (ref : ItemRef) :
      UniverseStep env Given u
        (u.update ref fun item => { item with pkg := ensureLoaded env item.pkg })
  | mark {u : JobsUniverse} (ref : ItemRef) :
      UniverseStep env Given u (u.update ref fun item => { item with processed := true })
  | other {u u' : JobsUniverse} (items : u'.items = u.items) (seen : u'.seen = u.seen) :
      UniverseStep env Given u u'

abbrev UniverseSteps (env : UniverseEnv) (Given : Pkg → Prop) :
    JobsUniverse → JobsUniverse → Prop :=
  Relation.ReflTransGen (UniverseStep env Given)

section
variable {env : UniverseEnv} {Given : Pkg → Prop}

theorem UniverseStep.itemAt {u u' : JobsUniverse} (h : UniverseStep env Given u u')
    {ref : ItemRef} {item : UniverseItem} (hitem : u.itemAt ref = some item) :
    ∃ item', u'.itemAt ref = some item' ∧ item'.pkg.basic = item.pkg.basic ∧
      item'.pkg.digest = item.pkg.digest := by
  cases h with
  | push => exact ⟨item, itemAt_push hitem, rfl, rfl⟩
  | load r =>
    rw [itemAt_update, hitem, Option.map_some]
    by_cases hr : ref = r
    · exact ⟨_, rfl, by rw [if_pos hr]; exact basic_ensureLoaded env item.pkg,
        by rw [if_pos hr]; exact digest_ensureLoaded env item.pkg⟩
    · exact ⟨item, by rw [if_neg hr], rfl, rfl⟩
  | mark r =>
    rw [itemAt_update, hitem, Option.map_some]
    by_cases hr : ref = r
    · exact ⟨_, rfl, by rw [if_pos hr], by rw [if_pos hr]⟩
    · exact ⟨item, by rw [if_neg hr], rfl, rfl⟩
  | other items seen =>
    refine ⟨item, ?_, rfl, rfl⟩
    show (List.lookup ref.uid u'.items).bind _ = some item
    rw [items]
    exact hitem

theorem UniverseStep.find_isSome {u u' : JobsUniverse} (h : UniverseStep env Given u u')
    {uid : String} (hfind : (u.find uid).isSome = true) : (u'.find uid).isSome = true := by
  cases h with
  | push =>
    rw [find_push]
    split
    · rfl
    · exact hfind
  | load r =>
    rw [find_update, Option.isSome_map]
    exact hfind
  | mark r =>
    rw [find_update, Option.isSome_map]
    exact hfind
  | other items seen =>
    show (List.lookup uid u'.items).isSome = true
    rw [items]
    exact hfind

theorem UniverseSteps.keep {F : JobsUniverse → Prop}
    (hkeep : ∀ u u', UniverseStep env Given u u' → F u → F u') {u u' : JobsUniverse}
    (h : UniverseSteps env Given u u') (hu : F u) : F u' := by
  induction h with
  | refl => exact hu
  | tail _ hstep ih => exact hkeep _ _ hstep ih

theorem UniverseSteps.present {u u' : JobsUniverse} (h : UniverseSteps env Given u u') {p : Pkg}
    (hp : Present u p) : Present u' p := by
  refine h.keep (F := fun u => Present u p) (fun v v' hstep hv => ?_) hp
  obtain ⟨ref, item, hitem, htype, hdigest, hsome⟩ := hv
  obtain ⟨item', hitem', hbasic, hdigest'⟩ := hstep.itemAt hitem
  exact ⟨ref, item', hitem', (type_of_basic hbasic).trans htype, hdigest'.trans hdigest, hsome⟩

theorem UniverseSteps.anchored {u u' : JobsUniverse} (h : UniverseSteps env Given u u')
    {uid : String} (ha : Anchored env u uid) : Anchored env u' uid := by
  rcases ha with hfetch | hnone | hfind | ⟨p, hp, hpresent⟩
  · exact Or.inl hfetch
  · exact Or.inr (Or.inl hnone)
  · have hfind' := h.keep (F := fun u => (u.find uid).isSome) (fun v v' hs hv => hs.find_isSome hv) hfind
    exact Or.inr (Or.inr (Or.inl hfind'))
  · exact Or.inr (Or.inr (Or.inr ⟨p, hp, h.present hpresent⟩))

end

end NextBSD.Libpkg
