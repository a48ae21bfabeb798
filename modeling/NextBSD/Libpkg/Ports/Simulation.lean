import NextBSD.Libpkg.Ports.Substitution

/-!
# A plist and its unrolled text

With loops that are not nested, clean bodies and one inclusion at most, the lines that reach the
handlers are those of the unrolled text.  The state of the plist between two items agrees with the
one that reading the unrolled text so far comes to.
-/

namespace NextBSD.Libpkg.Ports

open Manifest (Bytes ascii)
open TextLines

variable {sys : System} {perform : Perform}

section Relation

variable {incl : Unrolled → Bytes → Option Unrolled} {R : Unrolled → Unrolled → Prop}

structure Kept (sys : System) (perform : Perform) (incl : Unrolled → Bytes → Option Unrolled)
    (R : Unrolled → Unrolled → Prop) : Prop where
  refl (u : Unrolled) : R u u
  trans {u v w : Unrolled} : R u v → R v w → R u w
  line {subst : List (Bytes × Bytes)} {text : Bytes} {u u' : Unrolled} :
    unrollLine sys perform subst text u = some u' → R u u'
  incl {subst : List (Bytes × Bytes)} {text : Bytes} {u u' : Unrolled} :
    unrollIncl sys incl subst text u = some u' → R u u'
  clean (u : Unrolled) (c : Bool) : R u { u with clean := u.clean && c }

theorem Kept.foldlM (hR : Kept sys perform incl R) {α : Type} {f : Unrolled → α → Option Unrolled}
    (hf : ∀ u a u', f u a = some u' → R u u') {l : List α} {u u' : Unrolled}
    (h : l.foldlM f u = some u') : R u u' := by
  induction l generalizing u with
  | nil =>
    rw [← Option.some.inj h]
    exact hR.refl u
  | cons a l ih =>
    rw [List.foldlM_cons] at h
    cases hfirst : f u a with
    | none =>
      rw [hfirst] at h
      exact nomatch h
    | some v =>
      rw [hfirst] at h
      exact hR.trans (hf u a v hfirst) (ih h)

mutual

theorem Kept.unrollItem (hR : Kept sys perform incl R) (subst : List (Bytes × Bytes)) :
    ∀ (item : Item) (u u' : Unrolled),
      Ports.unrollItem sys perform incl subst item u = some u' → R u u'
  | .line text, u, u', h => by
    rw [Ports.unrollItem] at h
    exact hR.line h
  | .incl text, u, u', h => by
    rw [Ports.unrollItem] at h
    exact hR.incl h
  | .loop header body, u, u', h => by
    rw [Ports.unrollItem] at h
    cases hheader : unrollHeader sys subst header u with
    | none =>
      rw [hheader] at h
      exact nomatch h
    | some loop =>
      rw [hheader] at h
      have hvalue : ∀ u value u',
          Ports.unrollAll sys perform incl (subst ++ [(loop.1, value)]) body u = some u' → R u u' :=
        fun u value u' => Kept.unrollAll hR (subst ++ [(loop.1, value)]) body u u'
      exact hR.trans (hR.clean u _) (hR.foldlM hvalue h)

theorem Kept.unrollAll (hR : Kept sys perform incl R) (subst : List (Bytes × Bytes)) :
    ∀ (items : List Item) (u u' : Unrolled),
      Ports.unrollAll sys perform incl subst items u = some u' → R u u'
  | [], u, u', h => by
    rw [Ports.unrollAll] at h
    rw [← Option.some.inj h]
    exact hR.refl u
  | item :: items, u, u', h => by
    rw [Ports.unrollAll] at h
    obtain ⟨v, hitem, hrest⟩ := Option.bind_eq_some_iff.mp h
    exact hR.trans (Kept.unrollItem hR subst item u v hitem)
      (Kept.unrollAll hR subst items v u' hrest)

end

end Relation

structure Grows (u u' : Unrolled) : Prop where
  includes : u.includes ≤ u'.includes
  clean : u'.clean = true → u.clean = true

theorem Grows.trans {u v w : Unrolled} (h : Grows u v) (h' : Grows v w) : Grows u w where
  includes := Nat.le_trans h.includes h'.includes
  clean hw := h.clean (h'.clean hw)

theorem clean_of_and {u : Unrolled} {c : Bool} (h : (u.clean && c) = true) : u.clean = true :=
  (Bool.and_eq_true _ _ ▸ h : _ ∧ _).1

theorem unrollLine_eq_some {subst : List (Bytes × Bytes)} {text : Bytes} {u u' : Unrolled}
    (h : unrollLine sys perform subst text u = some u') :
    isOwnLine text = true ∧ ∃ p, readPlain sys perform u.plist (substLine subst text) = some p ∧
      u' = { u with
        text := u.text ++ [substLine subst text], plist := p
        clean := u.clean && keptClean subst text } := by
  unfold unrollLine at h
  by_cases hown : isOwnLine text = true
  · rw [if_pos hown] at h
    obtain ⟨p, hp, hu⟩ := Option.map_eq_some_iff.mp h
    exact ⟨hown, p, hp, hu.symm⟩
  · rw [if_neg hown] at h
    exact nomatch h

theorem unrollIncl_eq_some {incl : Unrolled → Bytes → Option Unrolled}
    {subst : List (Bytes × Bytes)} {text : Bytes} {u u' : Unrolled}
    (h : unrollIncl sys incl subst text u = some u') :
    isOwnLine text = true ∧ ∃ name, substAction sys subst text u = .includePlist name ∧
      incl { u with includes := u.includes + 1, clean := u.clean && keptClean subst text } name =
        some u' := by
  unfold unrollIncl at h
  by_cases hown : isOwnLine text = true
  · rw [if_pos hown] at h
    cases haction : substAction sys subst text u with
    | includePlist name =>
      rw [haction] at h
      exact ⟨hown, name, rfl, h⟩
    | _ =>
      rw [haction] at h
      exact nomatch h
  · rw [if_neg hown] at h
    exact nomatch h

/-- What holds of the lines and of the inclusions holds along an unrolling that includes files in
the same way. -/
theorem kept_grows {incl : Unrolled → Bytes → Option Unrolled}
    (hincl : ∀ u name u', incl u name = some u' → Grows u u') : Kept sys perform incl Grows where
  refl _ := ⟨Nat.le_refl _, id⟩
  trans := Grows.trans
  line h := by
    obtain ⟨-, p, -, rfl⟩ := unrollLine_eq_some h
    exact ⟨Nat.le_refl _, clean_of_and⟩
  incl h := by
    obtain ⟨-, name, -, hname⟩ := unrollIncl_eq_some h
    have hgrows := hincl _ name _ hname
    exact ⟨Nat.le_trans (Nat.le_succ _) hgrows.includes, fun hc => clean_of_and (hgrows.clean hc)⟩
  clean _ _ := ⟨Nat.le_refl _, clean_of_and⟩

def ReadsText (sys : System) (perform : Perform) (u : Unrolled) : Prop :=
  u.text.foldlM (readPlain sys perform) plistNew = some u.plist

theorem kept_readsText {incl : Unrolled → Bytes → Option Unrolled}
    (hincl : ∀ u name u', incl u name = some u' → ReadsText sys perform u →
      ReadsText sys perform u') :
    Kept sys perform incl (fun u u' => ReadsText sys perform u → ReadsText sys perform u') where
  refl _ h := h
  trans h h' hu := h' (h hu)
  line h hu := by
    obtain ⟨-, p, hp, rfl⟩ := unrollLine_eq_some h
    show (_ ++ [_]).foldlM (readPlain sys perform) plistNew = some p
    rw [List.foldlM_append, show List.foldlM _ _ _ = _ from hu]
    show (readPlain sys perform _ _ >>= pure) = _
    rw [bind_pure, hp]
  incl h hu := by
    obtain ⟨-, name, -, hname⟩ := unrollIncl_eq_some h
    exact hincl _ name _ hname hu
  clean _ _ h := h

theorem grows_inclFile {files : Bytes → Option (List Item)} {u u' : Unrolled} {name : Bytes}
    (h : inclFile sys perform files u name = some u') : Grows u u' := by
  unfold inclFile at h
  cases hfile : files name with
  | none =>
    rw [hfile] at h
    exact nomatch h
  | some items =>
    rw [hfile] at h
    exact (kept_grows (fun _ _ _ h => (Option.some_ne_none _ h.symm).elim)).unrollAll [] items u u' h

theorem readsText_inclFile {files : Bytes → Option (List Item)} {u u' : Unrolled} {name : Bytes}
    (h : inclFile sys perform files u name = some u') (hu : ReadsText sys perform u) :
    ReadsText sys perform u' := by
  unfold inclFile at h
  cases hfile : files name with
  | none =>
    rw [hfile] at h
    exact nomatch h
  | some items =>
    rw [hfile] at h
    exact (kept_readsText (fun _ _ _ h => (Option.some_ne_none _ h.symm).elim)).unrollAll [] items u u' h hu

/-- The plist has come as far as the unrolled text, and stands outside of a loop. -/
structure Agree (p : Plist) (u : Unrolled) : Prop where
  vars : p.vars = u.plist.vars
  handled : p.handled = u.plist.handled
  stack : p.forloopStack = []
  inInclude : p.inInclude = decide (0 < u.includes)

def varsAfter (vars : List (Bytes × Bytes)) (h : Handler) : List (Bytes × Bytes) :=
  match h with
  | .file _ _ => vars
  | .keyword keyword buf _ =>
    if keyword = ascii "var" then (addVariable vars buf).getD vars else vars

theorem handle_eq (perform : Perform) (p : Plist) (h : Handler) :
    (p.handle perform h).1 = { p with handled := p.handled ++ [h], vars := varsAfter p.vars h } := by
  cases h with
  | file buf attr => rfl
  | keyword keyword buf attr =>
    unfold Plist.handle varsAfter
    dsimp only
    split_ifs
    · cases addVariable p.vars buf with
      | none => rfl
      | some vars => rfl
    · rfl

structure Serves (sys : System) (perform : Perform) (parse : Plist → Bytes → Result)
    (incl : Unrolled → Bytes → Option Unrolled) : Prop where
  plain {p : Plist} {u : Unrolled} {line : Bytes} {q : Plist} : Agree p u →
    readPlain sys perform u.plist line = some q →
    ∃ p' rc, parse p (expandPlistVariables p.vars line) = .ok (p', rc) ∧
      ∀ u' : Unrolled, u'.plist = q → u'.includes = u.includes → Agree p' u'
  included {p : Plist} {u v u' : Unrolled} {line name : Bytes} : Agree p u →
    lineAction sys (expandPlistVariables u.plist.vars line) = .includePlist name →
    incl v name = some u' → v.plist = u.plist → v.includes = u.includes + 1 →
    u'.includes ≤ 1 → u'.clean = true →
    ∃ p' rc, parse p (expandPlistVariables p.vars line) = .ok (p', rc) ∧ Agree p' u'
  grows {u u' : Unrolled} {name : Bytes} : incl u name = some u' → Grows u u'

theorem Serves.kept {parse : Plist → Bytes → Result} {incl : Unrolled → Bytes → Option Unrolled}
    (hs : Serves sys perform parse incl) : Kept sys perform incl Grows :=
  kept_grows (fun _ _ _ h => hs.grows h)

theorem plistParseLine_plain {p : Plist} {u : Unrolled} {line : Bytes} {q : Plist} (depth : Nat)
    (h : Agree p u) (hread : readPlain sys perform u.plist line = some q) :
    ∃ p' rc, plistParseLine sys perform (depth + 1) p (expandPlistVariables p.vars line) =
      .ok (p', rc) ∧ ∀ u' : Unrolled, u'.plist = q → u'.includes = u.includes → Agree p' u' := by
  have houtside : p.inForLoop = false := by
    unfold Plist.inForLoop
    rw [h.stack]
    rfl
  have hkeep : ∀ u' : Unrolled, u'.plist = u.plist → u'.includes = u.includes → Agree p u' :=
    fun u' hplist hincludes =>
      { vars := h.vars.trans (hplist ▸ rfl), handled := h.handled.trans (hplist ▸ rfl)
        stack := h.stack, inInclude := by rw [h.inInclude, hincludes] }
  unfold plistParseLine
  unfold readPlain at hread
  rw [← h.vars] at hread
  by_cases hskip : isSkipped (expandPlistVariables p.vars line) = true
  · have haction : lineAction sys (expandPlistVariables p.vars line) = .skip := if_pos hskip
    rw [haction] at hread
    rw [if_pos hskip, ← Option.some.inj hread]
    exact ⟨p, .ok, rfl, hkeep⟩
  rw [if_neg hskip, houtside, if_neg Bool.false_ne_true]
  cases haction : lineAction sys (expandPlistVariables p.vars line) with
  | skip =>
    rw [haction] at hread
    rw [← Option.some.inj hread]
    exact ⟨p, .ok, rfl, hkeep⟩
  | malformed =>
    rw [haction] at hread
    rw [← Option.some.inj hread]
    exact ⟨p, .fatal, rfl, hkeep⟩
  | forHandler buf =>
    rw [haction] at hread
    exact nomatch hread
  | includePlist name =>
    rw [haction] at hread
    exact nomatch hread
  | handle handler =>
    rw [haction] at hread
    rw [← Option.some.inj hread]
    refine ⟨(p.handle perform handler).1, (p.handle perform handler).2, rfl,
      fun u' hplist hincludes => ?_⟩
    have hleft := handle_eq perform p handler
    have hright := handle_eq perform u.plist handler
    rw [hright] at hplist
    rw [hleft]
    exact
      { vars := by rw [hplist, h.vars], handled := by rw [hplist, h.handled]
        stack := h.stack, inInclude := by rw [hincludes]; exact h.inInclude }

end NextBSD.Libpkg.Ports
