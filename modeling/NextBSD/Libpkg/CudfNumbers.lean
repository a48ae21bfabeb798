import Mathlib.Data.List.Nodup
import NextBSD.Libpkg.Cudf

/-!
# Agreement of CUDF versions

The writer and the reader mean the same candidate by a version as long as no skipped candidate comes
before one that is written.
-/

namespace NextBSD.Libpkg

open NumberedSort

variable {qsort : List CudfItem → Outcome CudfItem} {jobUniverse : CudfUniverse} {chain : CudfChain}
  {skip : Nat → Bool} {items : List CudfItem} {self : CudfItem}

theorem compareItems_swap (a b : CudfItem) : compareItems b a = -compareItems a b :=
  versionCmp_swap a.pkg.version b.pkg.version

theorem compareItems_trans (a b c : CudfItem) (hab : compareItems a b ≤ 0)
    (hbc : compareItems b c ≤ 0) : compareItems a c ≤ 0 := versionCmp_trans hab hbc

theorem pkgCudfVersionCmp_skip (skip : Nat → Bool) (a b : CudfItem) (addr : Nat) :
    (pkgCudfVersionCmp skip a b).2 addr = true ↔
      skip addr = true ∨ (compareItems a b = 0 ∧
        ((a.pkg.type ≠ .installed ∧ a.addr = addr) ∨
          (a.pkg.type = .installed ∧ b.pkg.type ≠ .installed ∧ b.addr = addr))) := by
  have hupdate : ∀ other : Nat, Function.update skip other true addr = true ↔
      skip addr = true ∨ other = addr := by
    intro other
    by_cases h : addr = other
    · rw [h, Function.update_self]
      simp
    · rw [Function.update_of_ne h]
      exact ⟨Or.inl, fun hor => hor.resolve_right (fun heq => h heq.symm)⟩
  unfold pkgCudfVersionCmp
  simp only
  by_cases hret : versionCmp a.pkg.version b.pkg.version = 0
  · have hequal : compareItems a b = 0 := hret
    rw [if_pos hret]
    by_cases ha : a.pkg.type = .installed
    · rw [if_neg (not_not_intro ha)]
      by_cases hb : b.pkg.type = .installed
      · rw [if_neg (not_not_intro hb)]
        simp [ha, hb]
      · rw [if_pos hb]
        simp [ha, hb, hequal, hupdate]
    · rw [if_pos ha]
      simp [ha, hequal, hupdate]
  · have hdiffer : compareItems a b ≠ 0 := hret
    rw [if_neg hret]
    simp [hdiffer]

/-- A candidate is skipped if it is not installed and has been compared with an equal one, as the
first of the two or after an installed one. -/
theorem cudfEmitSkip_iff (compared : List (CudfItem × CudfItem)) (addr : Nat) :
    cudfEmitSkip compared addr = true ↔ ∃ a b, (a, b) ∈ compared ∧ compareItems a b = 0 ∧
      ((a.pkg.type ≠ .installed ∧ a.addr = addr) ∨
        (a.pkg.type = .installed ∧ b.pkg.type ≠ .installed ∧ b.addr = addr)) := by
  have hfold : ∀ skip : Nat → Bool,
      compared.foldl (fun skip p => (pkgCudfVersionCmp skip p.1 p.2).2) skip addr = true ↔
        skip addr = true ∨ ∃ a b, (a, b) ∈ compared ∧ compareItems a b = 0 ∧
          ((a.pkg.type ≠ .installed ∧ a.addr = addr) ∨
            (a.pkg.type = .installed ∧ b.pkg.type ≠ .installed ∧ b.addr = addr)) := by
    induction compared with
    | nil => simp
    | cons p compared ih =>
      intro skip
      rw [List.foldl_cons, ih, pkgCudfVersionCmp_skip, or_assoc]
      apply or_congr_right
      constructor
      · rintro (h | ⟨a, b, hmem, h⟩)
        · exact ⟨p.1, p.2, List.mem_cons_self, h⟩
        · exact ⟨a, b, List.mem_cons_of_mem _ hmem, h⟩
      · rintro ⟨a, b, hmem, h⟩
        rcases List.mem_cons.mp hmem with heq | hmem
        · rw [← heq]
          exact Or.inl h
        · exact Or.inr ⟨a, b, hmem, h⟩
  unfold cudfEmitSkip
  rw [hfold]
  simp

def isWritten (skip : Nat → Bool) (u : CudfItem) : Bool := !skip u.addr

theorem cudfEmitChain_eq (chain : List CudfItem) (version : Nat) :
    cudfEmitChain skip chain version items =
      (numbered (isWritten skip) version items).map
        (fun e => (e.1, cudfEmitPkg skip chain e.1 e.2)) := by
  induction items generalizing version with
  | nil => rfl
  | cons u items ih =>
    rw [cudfEmitChain, numbered]
    unfold isWritten at ih ⊢
    by_cases hskip : (!skip u.addr) = true
    · rw [if_pos hskip, if_pos hskip, ih, List.map_cons]
    · rw [if_neg hskip, if_neg hskip, ih]

theorem filterMap_version_cudfElements (names : List String) :
    (cudfElements names).filterMap CudfElement.version = [] := by
  induction names with
  | nil => rfl
  | cons name names ih =>
    rw [cudfElements, List.filterMap_cons]
    exact ih

def conflictPlaces (skip : Nat → Bool) (self : CudfItem) (ver : Nat) (items : List CudfItem) :
    List Nat :=
  ((items.zipIdx ver).filter (fun e => e.1.addr != self.addr && !skip e.1.addr)).map Prod.snd

theorem filterMap_version_cudfChainConflicts (ver : Nat) :
    (cudfChainConflicts skip self ver items).filterMap CudfElement.version =
      conflictPlaces skip self ver items := by
  unfold conflictPlaces
  induction items generalizing ver with
  | nil => rfl
  | cons u items ih =>
    rw [cudfChainConflicts, List.zipIdx_cons, List.filter_cons]
    by_cases hlisted : (u.addr != self.addr && !skip u.addr) = true
    · simp only [if_pos hlisted, List.filterMap_cons, List.map_cons, ih]
    · simp only [if_neg hlisted, ih]

theorem conflictVersions_cudfEmitPkg (version : Nat) :
    (cudfEmitPkg skip items self version).conflictVersions = conflictPlaces skip self 1 items := by
  unfold CudfStanza.conflictVersions cudfEmitPkg
  simp only
  by_cases hprinted : (!self.pkg.conflicts.isEmpty ||
      items.any (fun u => u.addr != self.addr && !skip u.addr)) = true
  · rw [if_pos hprinted, List.filterMap_append, filterMap_version_cudfElements, List.nil_append,
      filterMap_version_cudfChainConflicts]
  · rw [if_neg hprinted]
    -- A line that is not printed would have no version on it.
    rw [Bool.not_eq_true, Bool.or_eq_false_iff] at hprinted
    unfold conflictPlaces
    have hnone :
        (items.zipIdx 1).filter (fun e => e.1.addr != self.addr && !skip e.1.addr) = [] := by
      rw [List.filter_eq_nil_iff]
      intro e he hlisted
      have hany := List.any_eq_false.mp hprinted.2 e.1 (List.fst_mem_of_mem_zipIdx he)
      exact hany hlisted
    rw [hnone]
    rfl

theorem cudfSelect_fst (ver n : Nat) (hle : n ≤ ver) (items : List CudfItem) :
    (cudfSelect ver n items).1 = items[ver - n]? := by
  induction items generalizing n with
  | nil => rfl
  | cons u items ih =>
    rw [cudfSelect]
    by_cases heq : n = ver
    · rw [if_pos heq, heq, Nat.sub_self]
      rfl
    · have hsub : ver - n = (ver - (n + 1)) + 1 := by omega
      rw [if_neg heq, ih (n + 1) (by omega), hsub, List.getElem?_cons_succ]

theorem cudfSelect_snd {ver n : Nat} {u : CudfItem} (h : (cudfSelect ver n items).1 = some u) :
    (cudfSelect ver n items).2 = ver := by
  induction items generalizing n with
  | nil => exact absurd h (Option.some_ne_none u).symm
  | cons v items ih =>
    rw [cudfSelect] at h ⊢
    by_cases heq : n = ver
    · rw [if_pos heq]
      exact heq
    · rw [if_neg heq] at h ⊢
      exact ih h

theorem pkgJobsUniverseFind_eq (hchain : chain ∈ jobUniverse.chains) :
    pkgJobsUniverseFind qsort jobUniverse chain.uid = some (qsort chain.items).sorted := by
  unfold pkgJobsUniverseFind
  cases hfind : jobUniverse.chains.find? (fun c => c.uid == chain.uid) with
  | none =>
    have hno := List.find?_eq_none.mp hfind chain hchain
    exact absurd (beq_self_eq_true chain.uid) hno
  | some c =>
    have huid : c.uid = chain.uid := by simpa using List.find?_some hfind
    have hsame := List.inj_on_of_nodup_map jobUniverse.uid_nodup (List.mem_of_find?_eq_some hfind)
      hchain huid
    rw [hsame]
    rfl

theorem other_of_getElem? (haddr : (items.map CudfItem.addr).Nodup) {i : Nat}
    (hself : items[i]? = some self) (hi : 0 < i) : ∃ u ∈ items, u.addr ≠ self.addr := by
  cases items with
  | nil => exact absurd hself (by simp)
  | cons u items =>
    refine ⟨u, List.mem_cons_self, fun heq => ?_⟩
    obtain ⟨j, rfl⟩ := Nat.exists_eq_succ_of_ne_zero (Nat.ne_of_gt hi)
    rw [List.getElem?_cons_succ] at hself
    rw [List.map_cons, List.nodup_cons] at haddr
    apply haddr.1
    rw [heq]
    exact List.mem_map_of_mem (List.mem_of_getElem? hself)

theorem cudfInsertJob_ok (haddr : (items.map CudfItem.addr).Nodup) (entry : CudfEntry) (n : Nat)
    (hself : items[n - 1]? = some self) (hn : 1 ≤ n) :
    ∃ job, cudfInsertJob items entry self n = .ok job := by
  unfold cudfInsertJob
  by_cases hone : n = 1
  · rw [if_pos hone]
    split
    · exact ⟨_, rfl⟩
    · split
      · exact ⟨_, rfl⟩
      · exact ⟨_, rfl⟩
  · rw [if_neg hone]
    split
    · rename_i hnone
      obtain ⟨v, hv, hne⟩ := other_of_getElem? haddr hself (by omega)
      have hsame := List.find?_eq_none.mp hnone v hv
      exact absurd (bne_iff_ne.mpr hne) hsame
    · exact ⟨_, rfl⟩

theorem pkgJobsCudfAddPackage_ok (hchain : chain ∈ jobUniverse.chains)
    (haddr : ((qsort chain.items).sorted.map CudfItem.addr).Nodup) (entry : CudfEntry)
    (huid : entry.uid = chain.uid) (hver : 1 ≤ entry.version) (u : CudfItem) :
    (∃ job, pkgJobsCudfAddPackage qsort jobUniverse entry = .ok (u, job)) ↔
      (qsort chain.items).sorted[entry.version - 1]? = some u := by
  unfold pkgJobsCudfAddPackage
  rw [huid, pkgJobsUniverseFind_eq hchain]
  simp only
  have hselect := cudfSelect_fst entry.version 1 hver (qsort chain.items).sorted
  have hcount := @cudfSelect_snd (qsort chain.items).sorted entry.version 1
  generalize cudfSelect entry.version 1 (qsort chain.items).sorted = selection at hselect hcount ⊢
  obtain ⟨selected, n⟩ := selection
  simp only at hselect hcount
  rw [← hselect]
  cases selected with
  | none => simp
  | some selected =>
    simp only
    have hn := hcount rfl
    rw [← hn] at hselect
    have hok := cudfInsertJob_ok haddr entry n hselect.symm (by omega)
    obtain ⟨job, hjob⟩ := hok
    rw [hjob]
    constructor
    · rintro ⟨job', hjob'⟩
      rw [(Prod.mk.inj (Except.ok.inj hjob')).1]
    · intro hu
      rw [Option.some.inj hu]
      exact ⟨job, rfl⟩

/-- The numbers and the conflicts of a chain agree if no skipped candidate comes before one that is
written, and only then. -/
theorem numbersAgree_chain (hchain : chain ∈ jobUniverse.chains)
    (haddr : ((qsort chain.items).sorted.map CudfItem.addr).Nodup)
    (huid : ∀ u ∈ (qsort chain.items).sorted, u.pkg.uid = chain.uid) :
    (∀ e ∈ cudfEmitted qsort chain,
      (∀ entry : CudfEntry, entry.uid = e.2.package → entry.version = e.2.version →
        ∃ job, pkgJobsCudfAddPackage qsort jobUniverse entry = .ok (e.1, job)) ∧
      e.2.conflictVersions = ((cudfEmitted qsort chain).filter
        (fun o => o.1.addr != e.1.addr)).map (fun o => o.2.version)) ↔
      KeptFirst (isWritten (cudfEmitSkip (qsort chain.items).compared))
        (qsort chain.items).sorted := by
  unfold cudfEmitted
  simp only
  rw [cudfEmitChain_eq]
  generalize hsorted : (qsort chain.items).sorted = sorted at haddr huid ⊢
  generalize cudfEmitSkip (qsort chain.items).compared = skip
  have hselect : ∀ e ∈ numbered (isWritten skip) 1 sorted,
      (∀ entry : CudfEntry, entry.uid = e.1.pkg.uid → entry.version = e.2 →
        ∃ job, pkgJobsCudfAddPackage qsort jobUniverse entry = .ok (e.1, job)) ↔
        sorted[e.2 - 1]? = some e.1 := by
    intro e he
    have hle := le_of_mem_numbered he
    have heuid : e.1.pkg.uid = chain.uid := huid e.1 (mem_of_mem_numbered he)
    rw [← hsorted] at haddr ⊢
    constructor
    · intro h
      exact (pkgJobsCudfAddPackage_ok hchain haddr ⟨chain.uid, e.2, true⟩ rfl hle e.1).mp
        (h _ heuid.symm rfl)
    · intro h entry hentry hversion
      apply (pkgJobsCudfAddPackage_ok hchain haddr entry (hentry.trans heuid) (by omega) e.1).mpr
      rw [hversion]
      exact h
  constructor
  · intro h
    apply keptFirst_of_numbered
    intro e he
    exact (hselect e he).mp (h (e.1, cudfEmitPkg skip sorted e.1 e.2) (List.mem_map_of_mem he)).1
  · intro hkept e' he'
    obtain ⟨e, he, rfl⟩ := List.mem_map.mp he'
    have hplaces := numbered_eq_zipIdx (n := 1) hkept
    refine ⟨(hselect e he).mpr ?_, ?_⟩
    · have hmem : e ∈ sorted.zipIdx 1 := by
        rw [hplaces] at he
        exact List.mem_of_mem_filter he
      exact (List.mk_mem_zipIdx_iff_le_and_getElem?_sub.mp hmem).2
    · rw [conflictVersions_cudfEmitPkg, hplaces]
      unfold conflictPlaces
      rw [List.filter_map, List.map_map, List.filter_filter]
      rfl

theorem CudfChain.nodup (chain : CudfChain) : chain.items.Nodup := chain.addr_nodup.of_map

theorem numbersAgree_iff (hqsort : IsQsort qsort) :
    NumbersAgree qsort jobUniverse ↔ ∀ chain ∈ jobUniverse.chains,
      KeptFirst (isWritten (cudfEmitSkip (qsort chain.items).compared))
        (qsort chain.items).sorted := by
  apply forall₂_congr
  intro chain hchain
  have hperm := (hqsort chain.items chain.nodup).perm
  apply numbersAgree_chain hchain
  · exact (hperm.map CudfItem.addr).nodup_iff.mpr chain.addr_nodup
  · intro u hu
    exact chain.item_uid u (hperm.mem_iff.mp hu)

/-- No candidate of a chain that is not installed has the version of another one. -/
def NoRemoteEqual (chain : CudfChain) : Prop :=
  ∀ a ∈ chain.items, a.pkg.type ≠ .installed → ∀ b ∈ chain.items, compareItems a b = 0 → b = a

theorem keptFirst_of_noRemoteEqual {o : Outcome CudfItem}
    (ho : Sorts compareItems chain.items o) (hnone : NoRemoteEqual chain) :
    KeptFirst (isWritten (cudfEmitSkip o.compared)) o.sorted := by
  apply List.pairwise_of_forall
  intro a b _
  unfold isWritten
  rw [Bool.not_eq_true', Bool.eq_false_iff]
  intro hskip
  obtain ⟨x, y, hmem, hequal, hremote⟩ := (cudfEmitSkip_iff _ _).mp hskip
  obtain ⟨hx, hy, hne⟩ := ho.compared_mem x y hmem
  rcases hremote with ⟨hremote, -⟩ | ⟨-, hremote, -⟩
  · exact hne (hnone x hx hremote y hy hequal).symm
  · have hswap := compareItems_swap x y
    exact hne (hnone y hy hremote x hx (by omega))

/-! ## A sort that puts remote candidates first -/

def remoteLe (a b : CudfItem) : Bool :=
  compareItems a b < 0 ||
    (compareItems a b == 0 && (a.pkg.type != .installed || b.pkg.type == .installed))

def remoteFirst (items : List CudfItem) : Outcome CudfItem :=
  let sorted := items.mergeSort remoteLe
  { sorted := sorted, compared := neighbours sorted }

theorem remoteLe_iff (a b : CudfItem) :
    remoteLe a b = true ↔ compareItems a b < 0 ∨
      (compareItems a b = 0 ∧ (a.pkg.type = .installed → b.pkg.type = .installed)) := by
  unfold remoteLe
  by_cases ha : a.pkg.type = .installed
  · simp [ha]
  · simp [ha]

theorem pairwise_remoteFirst (items : List CudfItem) :
    (remoteFirst items).sorted.Pairwise (fun a b => remoteLe a b = true) := by
  apply List.pairwise_mergeSort
  · intro a b c hab hbc
    rw [remoteLe_iff] at hab hbc ⊢
    have hac := compareItems_trans a b c (by omega) (by omega)
    have hca := compareItems_swap a c
    by_cases hlt : compareItems a c < 0
    · exact Or.inl hlt
    · -- All three are equal, so the order is that of the types.
      have hcb := compareItems_trans c a b (by omega) (by omega)
      have hba := compareItems_trans b c a (by omega) (by omega)
      have hswapba := compareItems_swap a b
      have hswapcb := compareItems_swap b c
      have htypeab := (hab.resolve_left (by omega)).2
      have htypebc := (hbc.resolve_left (by omega)).2
      exact Or.inr ⟨by omega, fun ha => htypebc (htypeab ha)⟩
  · intro a b
    rw [Bool.or_eq_true, remoteLe_iff, remoteLe_iff]
    have hswap := compareItems_swap a b
    rcases Int.lt_trichotomy (compareItems a b) 0 with hlt | heq | hgt
    · exact Or.inl (Or.inl hlt)
    · by_cases hb : b.pkg.type = .installed
      · exact Or.inl (Or.inr ⟨heq, fun _ => hb⟩)
      · exact Or.inr (Or.inr ⟨by omega, fun hinstalled => absurd hinstalled hb⟩)
    · exact Or.inr (Or.inl (by omega))

theorem isQsort_remoteFirst : IsQsort remoteFirst := by
  intro items hnodup
  apply sorts_neighbours hnodup (List.mergeSort_perm items remoteLe)
  · apply (pairwise_remoteFirst items).imp
    intro a b hab
    rw [remoteLe_iff] at hab
    omega
  · exact compareItems_swap
  · exact compareItems_trans

theorem isWritten_of_next {l l₁ l₂ : List CudfItem} {q : CudfItem}
    (haddr : (l.map CudfItem.addr).Nodup)
    (hordered : l.Pairwise (fun a b => remoteLe a b = true)) (heq : l = l₁ ++ q :: l₂)
    (hnext : ∀ r ∈ l₂.head?, compareItems q r ≠ 0) :
    isWritten (cudfEmitSkip (neighbours l)) q = true := by
  unfold isWritten
  rw [Bool.not_eq_true', Bool.eq_false_iff]
  intro hskip
  obtain ⟨x, y, hmem, hequal, hremote⟩ := (cudfEmitSkip_iff _ _).mp hskip
  obtain ⟨m₁, m₂, hsplit⟩ := mem_neighbours_iff.mp hmem
  rcases hremote with ⟨-, hx⟩ | ⟨hx, hy, -⟩
  · have hxq : x = q := List.inj_on_of_nodup_map haddr (by rw [hsplit]; simp)
      (by rw [heq]; simp) hx
    subst hxq
    have hnodup : (m₁ ++ x :: (y :: m₂)).Nodup := hsplit ▸ haddr.of_map
    have hx₁ : x ∉ m₁ := fun h =>
      (List.nodup_append.mp hnodup).2.2 x h x List.mem_cons_self rfl
    have hx₂ : x ∉ y :: m₂ := (List.nodup_cons.mp (List.nodup_append.mp hnodup).2.1).1
    have hl₂ := ((List.append_cons_inj_of_notMem hx₁ hx₂).mp (hsplit.symm.trans heq)).2.2
    exact hnext y (by rw [← hl₂]; exact rfl) hequal
  · rw [hsplit, List.pairwise_append] at hordered
    have hle := (List.pairwise_cons.mp hordered.2.1).1 y List.mem_cons_self
    rcases (remoteLe_iff x y).mp hle with hlt | ⟨-, hinstalled⟩
    · omega
    · exact hy (hinstalled hx)

theorem exists_written_after {l : List CudfItem} (haddr : (l.map CudfItem.addr).Nodup)
    (hordered : l.Pairwise (fun a b => remoteLe a b = true)) (l₁ l₂ : List CudfItem)
    (p q : CudfItem) (heq : l = l₁ ++ p :: q :: l₂) (hequal : compareItems p q = 0) :
    ∃ z ∈ q :: l₂, isWritten (cudfEmitSkip (neighbours l)) z = true := by
  have hsplit : l = (l₁ ++ [p]) ++ q :: l₂ := by
    rw [heq, List.append_assoc]
    rfl
  induction l₂ generalizing l₁ p q with
  | nil =>
    refine ⟨q, List.mem_cons_self, isWritten_of_next haddr hordered hsplit ?_⟩
    exact fun r hr => absurd hr (Option.not_mem_none r)
  | cons r l₂ ih =>
    by_cases hnext : compareItems q r = 0
    · have hnextSplit : l = ((l₁ ++ [p]) ++ [q]) ++ r :: l₂ := by
        rw [hsplit, List.append_assoc (l₁ ++ [p])]
        rfl
      obtain ⟨z, hz, hwritten⟩ := ih (l₁ ++ [p]) q r hsplit hnext hnextSplit
      exact ⟨z, List.mem_cons_of_mem _ hz, hwritten⟩
    · refine ⟨q, List.mem_cons_self, isWritten_of_next haddr hordered hsplit ?_⟩
      intro r' hr
      rw [← Option.mem_some.mp hr]
      exact hnext

/-- With a remote candidate of the version of another, a sort that puts remote candidates first has
a skipped candidate before a written one. -/
theorem noRemoteEqual_of_keptFirst
    (hkept : KeptFirst (isWritten (cudfEmitSkip (remoteFirst chain.items).compared))
      (remoteFirst chain.items).sorted) : NoRemoteEqual chain := by
  have hsorts := isQsort_remoteFirst chain.items chain.nodup
  have hordered := pairwise_remoteFirst chain.items
  have haddr : ((remoteFirst chain.items).sorted.map CudfItem.addr).Nodup :=
    (hsorts.perm.map CudfItem.addr).nodup_iff.mpr chain.addr_nodup
  have hcompared : (remoteFirst chain.items).compared =
    neighbours (remoteFirst chain.items).sorted := rfl
  rw [hcompared] at hkept
  generalize (remoteFirst chain.items).sorted = l at *
  -- Two equal neighbours of which the first is not installed.
  have hpair : ∀ p q, (p, q) ∈ neighbours l → compareItems p q = 0 → p.pkg.type ≠ .installed →
      False := by
    intro p q hmem hequal hremote
    obtain ⟨l₁, l₂, heq⟩ := mem_neighbours_iff.mp hmem
    obtain ⟨z, hz, hwritten⟩ := exists_written_after haddr hordered l₁ l₂ p q heq hequal
    have hskip : cudfEmitSkip (neighbours l) p.addr = true :=
      (cudfEmitSkip_iff _ _).mpr ⟨p, q, hmem, hequal, Or.inl ⟨hremote, rfl⟩⟩
    have hfirst := hkept
    unfold KeptFirst at hfirst
    rw [heq, List.pairwise_append] at hfirst
    rw [← heq] at hfirst
    have hp := (List.pairwise_cons.mp hfirst.2.1).1 z hz hwritten
    unfold isWritten at hp
    rw [hskip] at hp
    exact absurd hp (by decide)
  intro a ha hremote b hb hequal
  by_contra hne
  obtain ⟨c, hac, hmet⟩ := hsorts.meets a ha b hb (fun h => hne h.symm) hequal
  rw [hcompared] at hmet
  rcases hmet with hmem | hmem
  · exact hpair a c hmem hac hremote
  · have hca := compareItems_swap a c
    obtain ⟨l₁, l₂, heq⟩ := mem_neighbours_iff.mp hmem
    have hle : remoteLe c a = true := by
      rw [heq, List.pairwise_append] at hordered
      exact (List.pairwise_cons.mp hordered.2.1).1 a List.mem_cons_self
    rcases (remoteLe_iff c a).mp hle with hlt | ⟨-, hinstalled⟩
    · omega
    · exact hpair c a hmem (by omega) (fun hc => hremote (hinstalled hc))

/-- The writer and the reader agree on a universe just if in no sorted chain a skipped candidate
comes before one that is written.  They agree whatever `qsort` does just if no candidate that is not
installed has the version of another one of its chain. -/
theorem numbersAgree_exactly (jobUniverse : CudfUniverse) :
    (∀ qsort, IsQsort qsort → (NumbersAgree qsort jobUniverse ↔ ∀ chain ∈ jobUniverse.chains,
      KeptFirst (isWritten (cudfEmitSkip (qsort chain.items).compared))
        (qsort chain.items).sorted)) ∧
      ((∀ qsort, IsQsort qsort → NumbersAgree qsort jobUniverse) ↔
        ∀ chain ∈ jobUniverse.chains, NoRemoteEqual chain) := by
  refine ⟨fun qsort hqsort => numbersAgree_iff hqsort, ?_⟩
  constructor
  · intro h chain hchain
    have hagree := (numbersAgree_iff isQsort_remoteFirst).mp (h remoteFirst isQsort_remoteFirst)
    exact noRemoteEqual_of_keptFirst (hagree chain hchain)
  · intro hnone qsort hqsort
    apply (numbersAgree_iff hqsort).mpr
    intro chain hchain
    exact keptFirst_of_noRemoteEqual (hqsort chain.items chain.nodup) (hnone chain hchain)

def installedFoo : CudfItem :=
  { addr := 0, pkg := { type := .installed, name := "foo", uid := "foo", version := "1.0" } }

def remoteFoo : CudfItem :=
  { addr := 1, pkg := { type := .remote, name := "foo", uid := "foo", version := "1.0" } }

def newerFoo : CudfItem :=
  { addr := 2, pkg := { type := .remote, name := "foo", uid := "foo", version := "2.0" } }

def fooChain : CudfChain where
  uid := "foo"
  items := [installedFoo, remoteFoo, newerFoo]
  addr_nodup := by decide
  item_uid := by decide

def fooUniverse : CudfUniverse where
  chains := [fooChain]
  uid_nodup := by decide

/-- Every sort makes the writer and the reader disagree about an installed candidate, a remote one
of the same version and a newer one. -/
theorem numbersAgree_not_foo :
    (∃ qsort, IsQsort qsort) ∧ ¬ ∃ qsort, IsQsort qsort ∧ NumbersAgree qsort fooUniverse := by
  refine ⟨⟨remoteFirst, isQsort_remoteFirst⟩, ?_⟩
  rintro ⟨qsort, hqsort, hagree⟩
  have hkept := (numbersAgree_iff hqsort).mp hagree fooChain List.mem_cons_self
  have hsorts := hqsort fooChain.items fooChain.nodup
  have hpairs : ∀ x ∈ fooChain.items, ∀ y ∈ fooChain.items, x ≠ y → compareItems x y = 0 →
      x.addr ≠ 2 ∧ y.addr ≠ 2 ∧ (x = remoteFoo → y = installedFoo) := by decide +kernel
  have hskipped : cudfEmitSkip (qsort fooChain.items).compared remoteFoo.addr = true := by
    obtain ⟨c, hequal, hmet⟩ := hsorts.meets remoteFoo (by decide) installedFoo (by decide)
      (by decide) (by decide +kernel)
    have hswap := compareItems_swap remoteFoo c
    rw [cudfEmitSkip_iff]
    rcases hmet with hmem | hmem
    · exact ⟨remoteFoo, c, hmem, hequal, Or.inl ⟨by decide, rfl⟩⟩
    · obtain ⟨hc, hremote, hne⟩ := hsorts.compared_mem _ _ hmem
      have hinstalled := (hpairs remoteFoo hremote c hc hne.symm hequal).2.2 rfl
      rw [hinstalled] at hmem
      exact ⟨installedFoo, remoteFoo, hmem, by decide +kernel, Or.inr ⟨rfl, by decide, rfl⟩⟩
  have hwritten : cudfEmitSkip (qsort fooChain.items).compared newerFoo.addr = false := by
    rw [Bool.eq_false_iff]
    intro hskip
    obtain ⟨x, y, hmem, hequal, hremote⟩ := (cudfEmitSkip_iff _ _).mp hskip
    obtain ⟨hx, hy, hne⟩ := hsorts.compared_mem x y hmem
    have hnewer := hpairs x hx y hy hne hequal
    rcases hremote with ⟨-, haddr⟩ | ⟨-, -, haddr⟩
    · exact hnewer.1 haddr
    · exact hnewer.2.1 haddr
  have hordered := hsorts.ordered
  obtain ⟨l₁, l₂, hsplit⟩ := List.append_of_mem (hsorts.perm.mem_iff.mpr
    (show newerFoo ∈ fooChain.items by decide))
  have hmem := hsorts.perm.mem_iff.mpr (show remoteFoo ∈ fooChain.items by decide)
  unfold KeptFirst at hkept
  rw [hsplit, List.pairwise_append] at hkept hordered
  rw [hsplit, List.mem_append, List.mem_cons] at hmem
  rcases hmem with hbefore | heq | hafter
  · have hlater := hkept.2.2 remoteFoo hbefore newerFoo List.mem_cons_self
    unfold isWritten at hlater
    rw [hskipped, hwritten] at hlater
    exact absurd (hlater rfl) (by decide)
  · exact absurd heq (by decide)
  · have hle := (List.pairwise_cons.mp hordered.2.1).1 remoteFoo hafter
    exact absurd hle (by decide +kernel)

end NextBSD.Libpkg
