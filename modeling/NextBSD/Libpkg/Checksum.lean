import Mathlib.Data.List.Sort
import NextBSD.Library.Compare
import NextBSD.Libpkg.Manifest.Types

/-!
# pkg_checksum.c: what is hashed of a package

The fields of a package become pairs of a key and a value.  The pairs are sorted, and the hash
function is fed each key and its value.
-/

namespace NextBSD.Libpkg.Checksum

open Manifest Compare

/-- The fields of a package that `pkg_checksum_generate` reads. -/
structure Subject where
  isGroup : Bool := false
  name : Bytes
  origin : Bytes
  version : Bytes
  altabi : Bytes
  vital : Bool := false
  options : List Kv := []
  shlibsRequired : List Bytes := []
  shlibsProvided : List Bytes := []
  users : List Bytes := []
  groups : List Bytes := []
  depends : List Dep := []
  provides : List Bytes := []
  requires : List Bytes := []
  scripts : List (Option Bytes) := []
  luaScripts : List (List Bytes) := []
  files : List File := []

/-- The entry of a dependency; `NULL` is printed as `(null)`. -/
def dependValue (isGroup : Bool) (dep : Dep) : Bytes :=
  if isGroup then dep.name else dep.name ++ ascii "~" ++ dep.origin.getD (ascii "(null)")

def keyed (key : String) (values : List Bytes) : List Kv :=
  values.map fun value => { key := ascii key, value := value }

def entries (incScripts incVersion : Bool) (pkg : Subject) : List Kv :=
  keyed "name" [pkg.name] ++
  (if pkg.isGroup then [] else keyed "origin" [pkg.origin]) ++
  (if incVersion && !pkg.isGroup then keyed "version" [pkg.version] else []) ++
  (if pkg.isGroup then [] else keyed "arch" [pkg.altabi]) ++
  keyed "vital" [ascii (if pkg.vital then "1" else "0")] ++
  pkg.options ++
  keyed "required_shlib" pkg.shlibsRequired ++
  keyed "provided_shlib" pkg.shlibsProvided ++
  keyed "user" pkg.users ++
  keyed "group" pkg.groups ++
  keyed "depend" (pkg.depends.map (dependValue pkg.isGroup)) ++
  keyed "provide" pkg.provides ++
  keyed "require" pkg.requires ++
  (if incScripts then
    keyed "script" (pkg.scripts.filterMap id) ++ keyed "lua_script" pkg.luaScripts.flatten
  else []) ++
  pkg.files.map fun f => { key := f.path, value := f.sum.getD [] }

def strcmp : Bytes → Bytes → Ordering := List.compareLex compare

def entryCmp (e1 e2 : Kv) : Ordering := (strcmp e1.key e2.key).then (strcmp e1.value e2.value)

def entryLe (e1 e2 : Kv) : Prop := (entryCmp e1 e2).isLE = true

instance : DecidableRel entryLe := fun e1 e2 =>
  inferInstanceAs (Decidable ((entryCmp e1 e2).isLE = true))

def sortEntries (entries : List Kv) : List Kv := entries.insertionSort entryLe

def feed (entries : List Kv) : Bytes := entries.flatMap fun e => e.key ++ e.value

def hashInput (incScripts incVersion : Bool) (pkg : Subject) : Bytes :=
  feed (sortEntries (entries incScripts incVersion pkg))

theorem strcmp_transCmp : Std.TransCmp strcmp :=
  inferInstanceAs (Std.TransCmp (List.compareLex (compare (α := UInt8))))

theorem eq_of_strcmp {a b : Bytes} (h : strcmp a b = .eq) : a = b := by
  have hlawful : Std.LawfulEqCmp (List.compareLex (compare (α := UInt8))) := inferInstance
  exact hlawful.eq_of_compare h

theorem entryCmp_transCmp : Std.TransCmp entryCmp :=
  then_transCmp (comap_transCmp Kv.key strcmp_transCmp) (comap_transCmp Kv.value strcmp_transCmp)

theorem eq_of_entryCmp {e1 e2 : Kv} (h : entryCmp e1 e2 = .eq) : e1 = e2 := by
  obtain ⟨hkey, hvalue⟩ := Ordering.then_eq_eq.mp h
  cases e1
  cases e2
  exact congrArg₂ Kv.mk (eq_of_strcmp hkey) (eq_of_strcmp hvalue)

instance : Std.Total entryLe where
  total a b := by
    have hswap : entryCmp b a = (entryCmp a b).swap := entryCmp_transCmp.eq_swap
    unfold entryLe
    rw [hswap]
    cases entryCmp a b with
    | lt => exact Or.inl rfl
    | eq => exact Or.inl rfl
    | gt => exact Or.inr rfl

instance : IsTrans Kv entryLe where
  trans _ _ _ hab hbc := entryCmp_transCmp.isLE_trans hab hbc

instance : Std.Antisymm entryLe where
  antisymm a b hab hba := by
    have hswap : entryCmp b a = (entryCmp a b).swap := entryCmp_transCmp.eq_swap
    unfold entryLe at hab hba
    rw [hswap] at hba
    refine eq_of_entryCmp ?_
    cases hcmp : entryCmp a b with
    | eq => rfl
    | lt =>
      rw [hcmp] at hba
      exact absurd hba Bool.false_ne_true
    | gt =>
      rw [hcmp] at hab
      exact absurd hab Bool.false_ne_true

theorem sortEntries_perm (entries : List Kv) : (sortEntries entries).Perm entries :=
  List.perm_insertionSort entryLe entries

theorem sortEntries_eq {l l' : List Kv} (h : l.Perm l') : sortEntries l = sortEntries l' :=
  ((sortEntries_perm l).trans (h.trans (sortEntries_perm l').symm)).eq_of_pairwise'
    (List.pairwise_insertionSort entryLe l) (List.pairwise_insertionSort entryLe l')

/-- The lists of `q` are those of `p` in another order; the rest is the same. -/
structure Reordered (p q : Subject) : Prop where
  options : p.options.Perm q.options
  shlibsRequired : p.shlibsRequired.Perm q.shlibsRequired
  shlibsProvided : p.shlibsProvided.Perm q.shlibsProvided
  users : p.users.Perm q.users
  groups : p.groups.Perm q.groups
  depends : p.depends.Perm q.depends
  provides : p.provides.Perm q.provides
  requires : p.requires.Perm q.requires
  files : p.files.Perm q.files
  rest : q = { p with
    options := q.options, shlibsRequired := q.shlibsRequired, shlibsProvided := q.shlibsProvided
    users := q.users, groups := q.groups, depends := q.depends, provides := q.provides
    requires := q.requires, files := q.files }

theorem entries_perm (incScripts incVersion : Bool) {p q : Subject} (h : Reordered p q) :
    (entries incScripts incVersion p).Perm (entries incScripts incVersion q) := by
  rw [h.rest]
  unfold entries keyed
  dsimp only
  refine List.Perm.append (List.Perm.append_right _ ?_) (h.files.map _)
  refine List.Perm.append ?_ (h.requires.map _)
  refine List.Perm.append ?_ (h.provides.map _)
  refine List.Perm.append ?_ ((h.depends.map _).map _)
  refine List.Perm.append ?_ (h.groups.map _)
  refine List.Perm.append ?_ (h.users.map _)
  refine List.Perm.append ?_ (h.shlibsProvided.map _)
  refine List.Perm.append ?_ (h.shlibsRequired.map _)
  exact List.Perm.append_left _ h.options

def cuts (entries : List Kv) : List (Nat × Nat) :=
  entries.map fun e => (e.key.length, e.value.length)

theorem eq_of_feed {l l' : List Kv} (hcuts : cuts l = cuts l') (hfeed : feed l = feed l') :
    l = l' := by
  induction l generalizing l' with
  | nil =>
    cases l' with
    | nil => rfl
    | cons e' l' => exact absurd hcuts (List.cons_ne_nil _ _).symm
  | cons e l ih =>
    cases l' with
    | nil => exact absurd hcuts (List.cons_ne_nil _ _)
    | cons e' l' =>
      obtain ⟨hhead, htail⟩ := List.cons.inj hcuts
      obtain ⟨hkey, hvalue⟩ := Prod.mk.inj hhead
      unfold feed at hfeed
      rw [List.flatMap_cons, List.flatMap_cons, List.append_assoc, List.append_assoc] at hfeed
      obtain ⟨hk, hrest⟩ := List.append_inj hfeed hkey
      obtain ⟨hv, hrest⟩ := List.append_inj hrest hvalue
      have he : e = e' := by
        cases e
        cases e'
        exact congrArg₂ Kv.mk hk hv
      rw [he, ih htail hrest]

end NextBSD.Libpkg.Checksum
