import NextBSD.Zsh.HistMemory
import NextBSD.Zsh.HistoryRing

/-!
# The table of the history

No two texts of the table compare the same, and so an entry is found and removed by its text.
-/

namespace NextBSD.Zsh.HistMemory

open CircularList
open History (Histtab histstrcmp histstrcmp_iff histstrcmp_self addhashnode2_found)

/-! ## Texts -/

theorem histstrcmp_comm (str1 str2 : Bytes) : histstrcmp str1 str2 = histstrcmp str2 str1 := by
  rw [Bool.eq_iff_iff, histstrcmp_iff, histstrcmp_iff]
  exact eq_comm

theorem histstrcmp_trans {str1 str2 : Bytes} (h : histstrcmp str1 str2 = true) (str3 : Bytes) :
    histstrcmp str1 str3 = histstrcmp str2 str3 := by
  rw [Bool.eq_iff_iff, histstrcmp_iff, histstrcmp_iff, (histstrcmp_iff str1 str2).mp h]

def Apart (tab : Histtab) : Prop := tab.Pairwise fun p q => histstrcmp p.1 q.1 = false

section

variable {tab : Histtab} {nam : Bytes} {addr : Nat}

theorem mem_addhashnode2 (h : Apart tab) (p : Bytes × Nat) :
    p ∈ (History.addhashnode2 tab nam addr).2 ↔
      p = (nam, addr) ∨ p ∈ tab ∧ histstrcmp p.1 nam = false := by
  induction tab with
  | nil =>
    unfold History.addhashnode2
    rw [List.mem_singleton]
    exact ⟨Or.inl, fun h => h.elim id fun h => absurd h.1 List.not_mem_nil⟩
  | cons hp tab ih =>
    obtain ⟨hhp, htab⟩ := List.pairwise_cons.mp h
    unfold History.addhashnode2
    by_cases hcmp : histstrcmp hp.1 nam = true
    · rw [if_pos hcmp, List.mem_cons, List.mem_cons]
      refine or_congr_right ⟨fun hmem => ⟨.inr hmem, ?_⟩, ?_⟩
      · rw [← hhp p hmem, histstrcmp_comm, histstrcmp_comm hp.1 p.1, histstrcmp_comm p.1 hp.1,
          histstrcmp_trans hcmp]
      · rintro ⟨rfl | hmem, hne⟩
        · rw [hcmp] at hne
          cases hne
        · exact hmem
    · have hfalse := Bool.eq_false_iff.mpr hcmp
      rw [if_neg hcmp]
      dsimp only
      rw [List.mem_cons, List.mem_cons, ih htab]
      constructor
      · rintro (rfl | rfl | ⟨hmem, hne⟩)
        · exact .inr ⟨.inl rfl, hfalse⟩
        · exact .inl rfl
        · exact .inr ⟨.inr hmem, hne⟩
      · rintro (rfl | ⟨rfl | hmem, hne⟩)
        · exact .inr (.inl rfl)
        · exact .inl rfl
        · exact .inr (.inr ⟨hmem, hne⟩)

theorem Apart.addhashnode2 (h : Apart tab) (nam : Bytes) (addr : Nat) :
    Apart (History.addhashnode2 tab nam addr).2 := by
  induction tab with
  | nil => exact List.pairwise_singleton _ _
  | cons hp tab ih =>
    obtain ⟨hhp, htab⟩ := List.pairwise_cons.mp h
    unfold History.addhashnode2
    by_cases hcmp : histstrcmp hp.1 nam = true
    · rw [if_pos hcmp]
      refine List.pairwise_cons.mpr ⟨fun p hmem => ?_, htab⟩
      show histstrcmp nam p.1 = false
      rw [← histstrcmp_trans hcmp]
      exact hhp p hmem
    · rw [if_neg hcmp]
      refine List.pairwise_cons.mpr ⟨fun p hmem => ?_, ih htab⟩
      rcases (mem_addhashnode2 htab p).mp hmem with rfl | ⟨hmem, -⟩
      · exact Bool.eq_false_iff.mpr hcmp
      · exact hhp p hmem

theorem addhashnode2_none (h : (History.addhashnode2 tab nam addr).1 = none) :
    ∀ p ∈ tab, histstrcmp p.1 nam = false := by
  induction tab with
  | nil => exact fun p hp => absurd hp List.not_mem_nil
  | cons hp tab ih =>
    unfold History.addhashnode2 at h
    by_cases hcmp : histstrcmp hp.1 nam = true
    · rw [if_pos hcmp] at h
      cases h
    · rw [if_neg hcmp] at h
      intro p hmem
      rcases List.mem_cons.mp hmem with rfl | hmem
      · exact Bool.eq_false_iff.mpr hcmp
      · exact ih h p hmem

theorem mem_removehashnode (h : Apart tab) (p : Bytes × Nat) :
    p ∈ History.removehashnode tab nam ↔ p ∈ tab ∧ histstrcmp p.1 nam = false := by
  induction tab with
  | nil => exact ⟨fun h => absurd h List.not_mem_nil, fun h => h.1⟩
  | cons hp tab ih =>
    obtain ⟨hhp, htab⟩ := List.pairwise_cons.mp h
    have ih := ih htab
    unfold History.removehashnode at ih ⊢
    by_cases hcmp : histstrcmp hp.1 nam = true
    · rw [List.eraseP_cons, hcmp, cond_true, List.mem_cons]
      constructor
      · refine fun hmem => ⟨.inr hmem, ?_⟩
        rw [histstrcmp_comm, ← histstrcmp_trans hcmp]
        exact hhp p hmem
      · rintro ⟨rfl | hmem, hne⟩
        · rw [hcmp] at hne
          cases hne
        · exact hmem
    · rw [List.eraseP_cons, Bool.eq_false_iff.mpr hcmp, cond_false, List.mem_cons, List.mem_cons,
        ih]
      constructor
      · rintro (rfl | ⟨hmem, hne⟩)
        · exact ⟨.inl rfl, Bool.eq_false_iff.mpr hcmp⟩
        · exact ⟨.inr hmem, hne⟩
      · rintro ⟨rfl | hmem, hne⟩
        · exact .inl rfl
        · exact .inr ⟨hmem, hne⟩

theorem Apart.removehashnode (h : Apart tab) (nam : Bytes) :
    Apart (History.removehashnode tab nam) := List.Pairwise.sublist List.eraseP_sublist h

theorem Apart.eq (h : Apart tab) {p q : Bytes × Nat} (hp : p ∈ tab) (hq : q ∈ tab)
    (hcmp : histstrcmp p.1 q.1 = true) : p = q := by
  by_contra hne
  have hsymm : Std.Symm fun p q : Bytes × Nat => histstrcmp p.1 q.1 = false :=
    ⟨fun p q hpq => by rwa [histstrcmp_comm]⟩
  have hfalse : histstrcmp p.1 q.1 = false := List.Pairwise.forall h hp hq hne
  rw [hcmp] at hfalse
  cases hfalse

theorem addhashnode2_eq_some_iff (h : Apart tab) {p : Bytes × Nat} (hp : p ∈ tab) :
    (History.addhashnode2 tab nam addr).1 = some p ↔ histstrcmp p.1 nam = true := by
  refine ⟨fun h => (addhashnode2_found tab nam addr h).2, fun hcmp => ?_⟩
  cases hadd : (History.addhashnode2 tab nam addr).1 with
  | none =>
    rw [addhashnode2_none hadd p hp] at hcmp
    cases hcmp
  | some q =>
    obtain ⟨hq, hqcmp⟩ := addhashnode2_found tab nam addr hadd
    refine congrArg some (h.eq hq hp ?_)
    rw [histstrcmp_trans hqcmp, histstrcmp_comm]
    exact hcmp

theorem mem_restored (h : Apart tab) {old : Bytes × Nat}
    (hold : (History.addhashnode2 tab nam addr).1 = some old) (p : Bytes × Nat) :
    p ∈ (History.addhashnode2 (History.addhashnode2 tab nam addr).2 old.1 old.2).2 ↔
      p ∈ tab := by
  obtain ⟨hmem, hcmp⟩ := addhashnode2_found tab nam addr hold
  rw [mem_addhashnode2 (h.addhashnode2 nam addr), mem_addhashnode2 h]
  constructor
  · rintro (rfl | ⟨rfl | ⟨hp, -⟩, hne⟩)
    · exact hmem
    · rw [histstrcmp_comm] at hcmp
      rw [hcmp] at hne
      cases hne
    · exact hp
  · intro hp
    by_cases hsame : histstrcmp p.1 old.1 = true
    · exact .inl (h.eq hp hmem hsame)
    · refine .inr ⟨.inr ⟨hp, ?_⟩, Bool.eq_false_iff.mpr hsame⟩
      rw [histstrcmp_comm, ← histstrcmp_trans hcmp, histstrcmp_comm]
      exact Bool.eq_false_iff.mpr hsame

end

/-- The entry belongs in the table: it is not marked, and not the one that is being filled. -/
def Listed (node : Ptr → Node) (pending : Option Ptr) (x : Ptr) : Prop :=
  pending ≠ some x ∧ (node x).flags.dup = false ∧ (node x).flags.tmpstore = false

structure Tabled (node : Ptr → Node) (xs : List Ptr) (pending : Option Ptr) (tab : Histtab) :
    Prop where
  mem : ∀ nam x, (nam, x) ∈ tab ↔ x ∈ xs ∧ Listed node pending x ∧ nam = (node x).nam
  apart : Apart tab

def tabWithout (tab : Histtab) (n : Node) : Histtab :=
  if n.flags.dup || n.flags.tmpstore then tab else History.removehashnode tab n.nam

section

variable {node : Ptr → Node} {as bs xs : List Ptr} {pending : Option Ptr} {tab : Histtab}
  {x : Ptr}

theorem Tabled.free (h : Tabled node (as ++ x :: bs) pending tab)
    (hnodup : (as ++ x :: bs).Nodup)
    (hmarked : pending = some x →
      (node x).flags.dup = true ∨ (node x).flags.tmpstore = true) :
    Tabled node (as ++ bs) pending (tabWithout tab (node x)) := by
  have hx : x ∉ as ++ bs := (List.nodup_middle.mp hnodup |> List.nodup_cons.mp).1
  have hsplit (y : Ptr) : y ∈ as ++ x :: bs ↔ y = x ∨ y ∈ as ++ bs := by
    rw [List.mem_append, List.mem_cons, List.mem_append]
    tauto
  unfold tabWithout
  by_cases hflags : ((node x).flags.dup || (node x).flags.tmpstore) = true
  · rw [if_pos hflags]
    refine ⟨fun nam y => (h.mem nam y).trans ⟨?_, ?_⟩, h.apart⟩
    · rintro ⟨hy, hlisted, hnam⟩
      refine ⟨((hsplit y).mp hy).resolve_left fun heq => ?_, hlisted, hnam⟩
      rw [heq] at hlisted
      rw [hlisted.2.1, hlisted.2.2] at hflags
      cases hflags
    · rintro ⟨hy, hlisted, hnam⟩
      exact ⟨(hsplit y).mpr (.inr hy), hlisted, hnam⟩
  · rw [if_neg hflags]
    rw [Bool.or_eq_true, not_or, Bool.not_eq_true, Bool.not_eq_true] at hflags
    have hmem : ((node x).nam, x) ∈ tab := by
      refine (h.mem _ x).mpr ⟨(hsplit x).mpr (.inl rfl), ⟨fun hp => ?_, hflags⟩, rfl⟩
      rcases hmarked hp with hdup | htmp
      · rw [hflags.1] at hdup
        cases hdup
      · rw [hflags.2] at htmp
        cases htmp
    refine ⟨fun nam y => ?_, h.apart.removehashnode _⟩
    rw [mem_removehashnode h.apart, h.mem]
    constructor
    · rintro ⟨⟨hy, hlisted, hnam⟩, hne⟩
      refine ⟨((hsplit y).mp hy).resolve_left fun heq => ?_, hlisted, hnam⟩
      rw [hnam, heq, histstrcmp_self] at hne
      cases hne
    · rintro ⟨hy, hlisted, hnam⟩
      have hy' : (nam, y) ∈ tab := (h.mem nam y).mpr ⟨(hsplit y).mpr (.inr hy), hlisted, hnam⟩
      refine ⟨⟨(hsplit y).mpr (.inr hy), hlisted, hnam⟩,
        Bool.eq_false_iff.mpr fun hcmp => hx ?_⟩
      rw [← (Prod.mk.inj (h.apart.eq hy' hmem hcmp)).2]
      exact hy

theorem Tabled.congr (h : Tabled node xs pending tab) {node' : Ptr → Node} {ys : List Ptr}
    {pending' : Option Ptr}
    (hsame : ∀ y nam, (y ∈ xs ∧ Listed node pending y ∧ nam = (node y).nam) ↔
      (y ∈ ys ∧ Listed node' pending' y ∧ nam = (node' y).nam)) :
    Tabled node' ys pending' tab :=
  ⟨fun nam y => (h.mem nam y).trans (hsame y nam), h.apart⟩

theorem Tabled.push (h : Tabled node xs none tab) {node' : Ptr → Node} (hx : x ∉ xs)
    (hnode : ∀ y ∈ xs, node' y = node y) : Tabled node' (xs ++ [x]) (some x) tab := by
  refine h.congr fun y nam => ?_
  rw [List.mem_append, List.mem_singleton]
  constructor
  · rintro ⟨hy, hlisted, hnam⟩
    unfold Listed at hlisted ⊢
    rw [hnode y hy]
    exact ⟨.inl hy, ⟨fun heq => hx (Option.some.inj heq ▸ hy), hlisted.2⟩, hnam⟩
  · rintro ⟨hy | rfl, hlisted, hnam⟩
    · unfold Listed at hlisted ⊢
      rw [hnode y hy] at hlisted hnam
      exact ⟨hy, ⟨nofun, hlisted.2⟩, hnam⟩
    · exact absurd rfl hlisted.1

theorem Tabled.add (h : Tabled node (xs ++ [x]) (some x) tab) {nam : Bytes} {node' : Ptr → Node}
    (hnam : nam = (node' x).nam)
    (hflags : (node' x).flags.dup = false ∧ (node' x).flags.tmpstore = false)
    (hrest : ∀ y ∈ xs, (node' y).nam = (node y).nam ∧
      (node' y).flags.tmpstore = (node y).flags.tmpstore ∧
      ((node' y).flags.dup = false ↔ (node y).flags.dup = false ∧
        ∀ old, (History.addhashnode2 tab nam x).1 = some old → old.2 ≠ y)) :
    Tabled node' (xs ++ [x]) none (History.addhashnode2 tab nam x).2 := by
  have hmem := h.mem
  unfold Listed at hmem
  refine ⟨fun nm y => ?_, h.apart.addhashnode2 nam x⟩
  unfold Listed
  rw [mem_addhashnode2 h.apart, Prod.mk.injEq]
  constructor
  · rintro (⟨rfl, rfl⟩ | ⟨hy, hne⟩)
    · exact ⟨List.mem_append_right xs List.mem_cons_self, ⟨nofun, hflags⟩, hnam⟩
    · obtain ⟨hyx, ⟨hpending, hdup, htmp⟩, hnm⟩ := (hmem nm y).mp hy
      have hyxs : y ∈ xs := (List.mem_append.mp hyx).resolve_right fun h =>
        hpending (congrArg some (List.mem_singleton.mp h).symm)
      obtain ⟨hnam', htmp', hdup'⟩ := hrest y hyxs
      refine ⟨hyx, ⟨nofun, hdup'.mpr ⟨hdup, fun old hold heq => ?_⟩, htmp'.trans htmp⟩,
        hnm.trans hnam'.symm⟩
      obtain ⟨holdtab, hcmp⟩ := addhashnode2_found tab nam x hold
      have hpair := (hmem old.1 old.2).mp holdtab
      rw [hpair.2.2, heq, ← hnm, hne] at hcmp
      cases hcmp
  · rintro ⟨hyx, ⟨-, hdup, htmp⟩, hnm⟩
    rcases List.mem_append.mp hyx with hyxs | hy
    · by_cases hsame : y = x
      · exact .inl ⟨by rw [hnm, hsame, hnam], hsame⟩
      · obtain ⟨hnam', htmp', hdup'⟩ := hrest y hyxs
        obtain ⟨hdup, hnot⟩ := hdup'.mp hdup
        have hy : (nm, y) ∈ tab := (hmem nm y).mpr
          ⟨hyx, ⟨fun heq => hsame (Option.some.inj heq).symm, hdup, htmp'.symm.trans htmp⟩,
            hnm.trans hnam'⟩
        refine .inr ⟨hy, Bool.eq_false_iff.mpr fun hcmp => ?_⟩
        exact hnot _ ((addhashnode2_eq_some_iff h.apart hy).mpr hcmp) rfl
    · have hsame := List.mem_singleton.mp hy
      exact .inl ⟨by rw [hnm, hsame, hnam], hsame⟩

theorem Tabled.restore (h : Tabled node xs pending tab) {nam : Bytes} {addr : Nat}
    {old : Bytes × Nat} (hold : (History.addhashnode2 tab nam addr).1 = some old) :
    Tabled node xs pending
      (History.addhashnode2 (History.addhashnode2 tab nam addr).2 old.1 old.2).2 :=
  ⟨fun nm y => (mem_restored h.apart hold (nm, y)).trans (h.mem nm y),
    (h.apart.addhashnode2 nam addr).addhashnode2 old.1 old.2⟩

theorem Tabled.done (h : Tabled node xs (some x) tab) (hx : x ∉ xs) : Tabled node xs none tab := by
  refine h.congr fun y nam => and_congr_right fun hy => and_congr_left' ?_
  unfold Listed
  exact and_congr_left' ⟨fun _ => nofun, fun _ heq => hx (Option.some.inj heq ▸ hy)⟩

end

end NextBSD.Zsh.HistMemory
