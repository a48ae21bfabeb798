import Mathlib.Data.List.Nodup
import Mathlib.Data.List.Perm.Basic

/-!
# hashtable.c

A table is an array of chains.  A node is known by its address, and a node that is added is in no
chain of the table.  Memory does not run out and no counter overflows.
-/

namespace NextBSD.Zsh

abbrev Addr := Nat

/-- `struct hashnode`; its `next` is its place in the chain. -/
structure HashNode (Name : Type) where
  addr : Addr
  nam : Name
  flags : Nat
  deriving DecidableEq, Repr

inductive ScanStatus where
  | sorted (hashtab : List (Option Addr))
  | chain (u : Option Addr)
  deriving DecidableEq, Repr

/-- `struct hashtable` with the status of a scan over it. -/
structure HashTable (Name : Type) where
  hsize : Nat
  ct : Nat
  nodes : List (List (HashNode Name))
  scan : Option ScanStatus
  deriving DecidableEq, Repr

structure Methods (Name : Type) where
  hash : Name → Nat
  /-- `ztrcmp(a, b) <= 0`. -/
  ztrle : Name → Name → Bool

variable {Name : Type}

def HashTable.all (ht : HashTable Name) : List (HashNode Name) := ht.nodes.flatten

def newhashtable (size : Nat) : HashTable Name :=
  { hsize := size, ct := 0, nodes := List.replicate size [], scan := none }

section Operations

variable (M : Methods Name)

def HashTable.hashval (ht : HashTable Name) (nam : Name) : Nat := M.hash nam % ht.hsize

def HashTable.chain (ht : HashTable Name) (nam : Name) : List (HashNode Name) :=
  ht.nodes.getD (ht.hashval M nam) []

variable [DecidableEq Name]

/-- The search of `addhashnode2`: the node of the same name and the chain with `hn` in its
place. -/
def replaceNode (hn : HashNode Name) :
    List (HashNode Name) → Option (HashNode Name × List (HashNode Name))
  | [] => none
  | hp :: rest =>
    if hp.nam = hn.nam then some (hp, hn :: rest)
    else (replaceNode hn rest).map (fun r => (r.1, hp :: r.2))

/-- The search of `removehashnode`: the node, what its `next` is, and the chain without it. -/
def unlinkNode (nam : Name) :
    List (HashNode Name) → Option (HashNode Name × Option Addr × List (HashNode Name))
  | [] => none
  | hp :: rest =>
    if hp.nam = nam then some (hp, rest.head?.map HashNode.addr, rest)
    else (unlinkNode nam rest).map (fun r => (r.1, r.2.1, hp :: r.2.2))

/-- A pointer of the scan status that is `hp` becomes another one. -/
def patch (hp : Addr) (new p : Option Addr) : Option Addr := if p = some hp then new else p

/-- A scan in progress, when `hn` takes the place of `hp`. -/
def ScanStatus.replaced (hp hn : Addr) : ScanStatus → ScanStatus
  | sorted hashtab => sorted (hashtab.map (patch hp (some hn)))
  | chain u => chain (patch hp (some hn) u)

/-- A scan in progress, when `hp` is unlinked from before `next`. -/
def ScanStatus.removed (hp : Addr) (next : Option Addr) : ScanStatus → ScanStatus
  | sorted hashtab => sorted (hashtab.map (patch hp none))
  | chain u => chain (patch hp next u)

theorem patch_self (hp : Addr) (new : Option Addr) : patch hp new (some hp) = new := if_pos rfl

theorem patch_of_ne {hp : Addr} {p : Option Addr} (new : Option Addr) (h : p ≠ some hp) :
    patch hp new p = p := if_neg h

theorem patch_none (hp : Addr) (new : Option Addr) : patch hp new none = none := rfl

/-- `addhashnode2`, with the function that expands the table.  The node that was replaced is
returned. -/
def addhashnodeWith (expand : HashTable Name → Option (HashTable Name)) (ht : HashTable Name)
    (hn : HashNode Name) : Option (Option (HashNode Name) × HashTable Name) :=
  match replaceNode hn (ht.chain M hn.nam) with
  | some (hp, chain) =>
    some (some hp,
      { ht with
        nodes := ht.nodes.set (ht.hashval M hn.nam) chain
        scan := ht.scan.map (ScanStatus.replaced hp.addr hn.addr) })
  | none =>
    let ht' :=
      { ht with
        nodes := ht.nodes.set (ht.hashval M hn.nam) (hn :: ht.chain M hn.nam)
        ct := ht.ct + 1 }
    if ht'.ct ≥ ht'.hsize * 2 ∧ ht'.scan = none then (expand ht').map (none, ·)
    else some (none, ht')

/-- `expandhashtable`.  It adds the nodes again, and that may expand the table once more; the
number bounds how deep this goes. -/
def expandhashtable : Nat → HashTable Name → Option (HashTable Name)
  | 0, _ => none
  | depth + 1, ht =>
    ht.all.foldlM
      (fun ht hn => (addhashnodeWith M (expandhashtable depth) ht hn).map Prod.snd)
      { ht with
        hsize := ht.hsize * 4
        nodes := List.replicate (ht.hsize * 4) []
        ct := 0 }

def addhashnode2 (ht : HashTable Name) (hn : HashNode Name) :
    Option (Option (HashNode Name) × HashTable Name) :=
  addhashnodeWith M (expandhashtable M 2) ht hn

def gethashnode2 (ht : HashTable Name) (nam : Name) : Option (HashNode Name) :=
  (ht.chain M nam).find? (fun hp => hp.nam = nam)

def removehashnode (ht : HashTable Name) (nam : Name) : Option (HashNode Name) × HashTable Name :=
  match unlinkNode nam (ht.chain M nam) with
  | none => (none, ht)
  | some (hp, next, chain) =>
    (some hp,
      { ht with
        nodes := ht.nodes.set (ht.hashval M nam) chain
        ct := ht.ct - 1
        scan := ht.scan.map (ScanStatus.removed hp.addr next) })

def HashTable.Fresh (ht : HashTable Name) (hn : HashNode Name) : Prop :=
  ∀ hp ∈ ht.all, hp.addr ≠ hn.addr

instance instDecidableFresh (ht : HashTable Name) (hn : HashNode Name) : Decidable (ht.Fresh hn) := by
  unfold HashTable.Fresh
  infer_instance

def putReplaced (ht : HashTable Name) (hp hn : HashNode Name) (chain : List (HashNode Name)) :
    HashTable Name :=
  { ht with
    nodes := ht.nodes.set (ht.hashval M hn.nam) chain
    scan := ht.scan.map (ScanStatus.replaced hp.addr hn.addr) }

def putNew (ht : HashTable Name) (hn : HashNode Name) : HashTable Name :=
  { ht with
    nodes := ht.nodes.set (ht.hashval M hn.nam) (hn :: ht.chain M hn.nam)
    ct := ht.ct + 1 }

def putRemoved (ht : HashTable Name) (hp : HashNode Name) (next : Option Addr)
    (chain : List (HashNode Name)) : HashTable Name :=
  { ht with
    nodes := ht.nodes.set (ht.hashval M hp.nam) chain
    ct := ht.ct - 1
    scan := ht.scan.map (ScanStatus.removed hp.addr next) }

end Operations

variable (M : Methods Name)

/-- Each node is in the chain of its name, no name and no address is there twice, and `ct` counts
the nodes. -/
structure WellFormed (ht : HashTable Name) : Prop where
  pos : 0 < ht.hsize
  length : ht.nodes.length = ht.hsize
  placed : ∀ i chain, ht.nodes[i]? = some chain → ∀ hn ∈ chain, ht.hashval M hn.nam = i
  names : (ht.all.map HashNode.nam).Nodup
  addrs : (ht.all.map HashNode.addr).Nodup
  count : ht.ct = ht.all.length

def Inserted (hn : HashNode Name) (l l' : List (HashNode Name)) : Prop :=
  ∃ x y, l = x ++ y ∧ l' = x ++ hn :: y

def Swapped (hp hn : HashNode Name) (l l' : List (HashNode Name)) : Prop :=
  ∃ x y, l = x ++ hp :: y ∧ l' = x ++ hn :: y

section Searches

variable [DecidableEq Name]

theorem replaceNode_eq_some {hn hp : HashNode Name} {l l' : List (HashNode Name)}
    (h : replaceNode hn l = some (hp, l')) : hp.nam = hn.nam ∧ Swapped hp hn l l' := by
  induction l generalizing l' with
  | nil => cases h
  | cons a l ih =>
    unfold replaceNode at h
    split at h
    · next hnam =>
      cases h
      exact ⟨hnam, [], l, rfl, rfl⟩
    · obtain ⟨⟨hp', l₁⟩, hrec, heq⟩ := Option.map_eq_some_iff.mp h
      cases heq
      obtain ⟨hnam, x, y, hl, hl'⟩ := ih hrec
      exact ⟨hnam, a :: x, y, congrArg (a :: ·) hl, congrArg (a :: ·) hl'⟩

theorem replaceNode_eq_none {hn : HashNode Name} {l : List (HashNode Name)}
    (h : replaceNode hn l = none) : ∀ hp ∈ l, hp.nam ≠ hn.nam := by
  induction l with
  | nil => exact fun hp hmem => absurd hmem List.not_mem_nil
  | cons a l ih =>
    unfold replaceNode at h
    split at h
    · cases h
    · next hnam =>
      intro hp hmem
      rcases List.mem_cons.mp hmem with rfl | hmem
      · exact hnam
      · exact ih (Option.map_eq_none_iff.mp h) hp hmem

theorem unlinkNode_eq_some {nam : Name} {hp : HashNode Name} {next : Option Addr}
    {l l' : List (HashNode Name)} (h : unlinkNode nam l = some (hp, next, l')) :
    hp.nam = nam ∧ ∃ x y, l = x ++ hp :: y ∧ l' = x ++ y ∧ next = y.head?.map HashNode.addr := by
  induction l generalizing l' with
  | nil => cases h
  | cons a l ih =>
    unfold unlinkNode at h
    split at h
    · next hnam =>
      cases h
      exact ⟨hnam, [], l, rfl, rfl, rfl⟩
    · obtain ⟨⟨hp', next', l₁⟩, hrec, heq⟩ := Option.map_eq_some_iff.mp h
      cases heq
      obtain ⟨hnam, x, y, hl, hl', hnext⟩ := ih hrec
      exact ⟨hnam, a :: x, y, congrArg (a :: ·) hl, congrArg (a :: ·) hl', hnext⟩

theorem unlinkNode_eq_none {nam : Name} {l : List (HashNode Name)}
    (h : unlinkNode nam l = none) : ∀ hp ∈ l, hp.nam ≠ nam := by
  induction l with
  | nil => exact fun hp hmem => absurd hmem List.not_mem_nil
  | cons a l ih =>
    unfold unlinkNode at h
    split at h
    · cases h
    · next hnam =>
      intro hp hmem
      rcases List.mem_cons.mp hmem with rfl | hmem
      · exact hnam
      · exact ih (Option.map_eq_none_iff.mp h) hp hmem

end Searches

theorem Inserted.flatten {hn : HashNode Name} {l l' : List (HashNode Name)}
    (h : Inserted hn l l') (a b : List (List (HashNode Name))) :
    Inserted hn (a ++ l :: b).flatten (a ++ l' :: b).flatten := by
  obtain ⟨x, y, rfl, rfl⟩ := h
  refine ⟨a.flatten ++ x, y ++ b.flatten, ?_, ?_⟩
  · simp only [List.flatten_append, List.flatten_cons, List.append_assoc]
  · simp only [List.flatten_append, List.flatten_cons, List.append_assoc, List.cons_append]

theorem Swapped.flatten {hp hn : HashNode Name} {l l' : List (HashNode Name)}
    (h : Swapped hp hn l l') (a b : List (List (HashNode Name))) :
    Swapped hp hn (a ++ l :: b).flatten (a ++ l' :: b).flatten := by
  obtain ⟨x, y, rfl, rfl⟩ := h
  refine ⟨a.flatten ++ x, y ++ b.flatten, ?_, ?_⟩
  · simp only [List.flatten_append, List.flatten_cons, List.append_assoc, List.cons_append]
  · simp only [List.flatten_append, List.flatten_cons, List.append_assoc, List.cons_append]

theorem Inserted.perm {hn : HashNode Name} {l l' : List (HashNode Name)} (h : Inserted hn l l') :
    l'.Perm (hn :: l) := by
  obtain ⟨x, y, rfl, rfl⟩ := h
  exact List.perm_middle

theorem Swapped.perm {hp hn : HashNode Name} {l l' : List (HashNode Name)}
    (h : Swapped hp hn l l') : ∃ r, l.Perm (hp :: r) ∧ l'.Perm (hn :: r) := by
  obtain ⟨x, y, rfl, rfl⟩ := h
  exact ⟨x ++ y, List.perm_middle, List.perm_middle⟩

section Bucket

variable {M} {ht : HashTable Name}

theorem hashval_lt (wf : WellFormed M ht) (nam : Name) : ht.hashval M nam < ht.nodes.length := by
  rw [wf.length]
  exact Nat.mod_lt _ wf.pos

theorem nodes_chain (wf : WellFormed M ht) (nam : Name) :
    ht.nodes[ht.hashval M nam]? = some (ht.chain M nam) := by
  have hlt := hashval_lt wf nam
  unfold HashTable.chain
  rw [List.getD_eq_getElem?_getD, List.getElem?_eq_getElem hlt, Option.getD_some]

theorem nodes_split (wf : WellFormed M ht) (nam : Name) :
    ∃ a b, ht.nodes = a ++ ht.chain M nam :: b ∧ a.length = ht.hashval M nam ∧
      ∀ c, ht.nodes.set (ht.hashval M nam) c = a ++ c :: b := by
  have hlt := hashval_lt wf nam
  have hget : ht.nodes[ht.hashval M nam] = ht.chain M nam :=
    (List.getElem_eq_iff hlt).mpr (nodes_chain wf nam)
  refine ⟨ht.nodes.take (ht.hashval M nam), ht.nodes.drop (ht.hashval M nam + 1), ?_, ?_, ?_⟩
  · rw [← hget, List.getElem_cons_drop, List.take_append_drop]
  · rw [List.length_take, Nat.min_eq_left (Nat.le_of_lt hlt)]
  · intro c
    rw [List.set_eq_take_append_cons_drop, if_pos hlt]

theorem mem_all_of_mem_chain (wf : WellFormed M ht) {nam : Name} {hn : HashNode Name}
    (h : hn ∈ ht.chain M nam) : hn ∈ ht.all :=
  List.mem_flatten_of_mem (List.mem_of_getElem? (nodes_chain wf nam)) h

theorem mem_chain_of_mem_all (wf : WellFormed M ht) {hn : HashNode Name} (h : hn ∈ ht.all) :
    hn ∈ ht.chain M hn.nam := by
  obtain ⟨chain, hchain, hmem⟩ := List.mem_flatten.mp h
  obtain ⟨i, hi⟩ := List.mem_iff_getElem?.mp hchain
  have hplace := wf.placed i chain hi hn hmem
  have hsame := nodes_chain wf hn.nam
  rw [hplace, hi] at hsame
  cases hsame
  exact hmem

theorem eq_of_nam_eq (wf : WellFormed M ht) {a b : HashNode Name} (ha : a ∈ ht.all)
    (hb : b ∈ ht.all) (h : a.nam = b.nam) : a = b :=
  List.inj_on_of_nodup_map wf.names ha hb h

theorem eq_of_addr_eq (wf : WellFormed M ht) {a b : HashNode Name} (ha : a ∈ ht.all)
    (hb : b ∈ ht.all) (h : a.addr = b.addr) : a = b :=
  List.inj_on_of_nodup_map wf.addrs ha hb h

theorem wellFormed_set {ht' : HashTable Name} (wf : WellFormed M ht) {nam : Name}
    {c : List (HashNode Name)} (hsize : ht'.hsize = ht.hsize)
    (hnodes : ht'.nodes = ht.nodes.set (ht.hashval M nam) c)
    (hc : ∀ hn ∈ c, hn ∈ ht.chain M nam ∨ hn.nam = nam)
    (names : (ht'.all.map HashNode.nam).Nodup) (addrs : (ht'.all.map HashNode.addr).Nodup)
    (count : ht'.ct = ht'.all.length) : WellFormed M ht' where
  pos := by rw [hsize]; exact wf.pos
  length := by rw [hnodes, List.length_set, wf.length, hsize]
  placed := by
    intro i chain hi hn hmem
    have hval : ht'.hashval M hn.nam = ht.hashval M hn.nam := by
      unfold HashTable.hashval
      rw [hsize]
    rw [hval]
    rw [hnodes, List.getElem?_set] at hi
    split at hi
    · next hsame =>
      rw [hsame] at hi
      rw [if_pos (by rw [← hsame]; exact hashval_lt wf nam)] at hi
      cases hi
      rcases hc hn hmem with hold | hnam
      · rw [← hsame]
        exact wf.placed _ _ (nodes_chain wf nam) hn hold
      · rw [hnam, hsame]
    · exact wf.placed i chain hi hn hmem
  names := names
  addrs := addrs
  count := count

variable [DecidableEq Name]

theorem gethashnode2_eq_some (wf : WellFormed M ht) {nam : Name} {hn : HashNode Name} :
    gethashnode2 M ht nam = some hn ↔ hn ∈ ht.all ∧ hn.nam = nam := by
  unfold gethashnode2
  constructor
  · intro h
    have hnam : hn.nam = nam := by simpa using List.find?_some h
    exact ⟨mem_all_of_mem_chain wf (List.mem_of_find?_eq_some h), hnam⟩
  · rintro ⟨hmem, rfl⟩
    have hchain := mem_chain_of_mem_all wf hmem
    cases hfind : (ht.chain M hn.nam).find? (fun hp => hp.nam = hn.nam) with
    | none =>
      have hno := List.find?_eq_none.mp hfind hn hchain
      exact absurd (decide_eq_true rfl) hno
    | some hp =>
      have hnam : hp.nam = hn.nam := by simpa using List.find?_some hfind
      have hp_mem := mem_all_of_mem_chain wf (List.mem_of_find?_eq_some hfind)
      rw [eq_of_nam_eq wf hp_mem hmem hnam]

theorem gethashnode2_eq_none (wf : WellFormed M ht) {nam : Name} :
    gethashnode2 M ht nam = none ↔ ∀ hn ∈ ht.all, hn.nam ≠ nam := by
  constructor
  · intro h hn hmem hnam
    have hsome := (gethashnode2_eq_some wf).mpr ⟨hmem, hnam⟩
    rw [h] at hsome
    cases hsome
  · intro h
    cases hget : gethashnode2 M ht nam with
    | none => rfl
    | some hn =>
      obtain ⟨hmem, hnam⟩ := (gethashnode2_eq_some wf).mp hget
      exact absurd hnam (h hn hmem)

theorem gethashnode2_perm {ht' : HashTable Name} (wf : WellFormed M ht) (wf' : WellFormed M ht')
    (h : ht'.all.Perm ht.all) (nam : Name) : gethashnode2 M ht' nam = gethashnode2 M ht nam := by
  ext hn
  rw [gethashnode2_eq_some wf, gethashnode2_eq_some wf', h.mem_iff]

/-! ## One operation -/

theorem add_replaced (wf : WellFormed M ht) {hn hp : HashNode Name}
    (hget : gethashnode2 M ht hn.nam = some hp) (hfresh : ht.Fresh hn)
    (expand : HashTable Name → Option (HashTable Name)) :
    ∃ chain, Swapped hp hn (ht.chain M hn.nam) chain ∧
      addhashnodeWith M expand ht hn = some (some hp, putReplaced M ht hp hn chain) ∧
      WellFormed M (putReplaced M ht hp hn chain) ∧
      Swapped hp hn ht.all (putReplaced M ht hp hn chain).all := by
  obtain ⟨hp_mem, hp_nam⟩ := (gethashnode2_eq_some wf).mp hget
  cases hsearch : replaceNode hn (ht.chain M hn.nam) with
  | none =>
    have hchain := mem_chain_of_mem_all wf hp_mem
    rw [hp_nam] at hchain
    exact absurd hp_nam (replaceNode_eq_none hsearch hp hchain)
  | some r =>
    obtain ⟨hq, chain⟩ := r
    obtain ⟨hq_nam, hswap⟩ := replaceNode_eq_some hsearch
    have hq_mem : hq ∈ ht.chain M hn.nam := by
      obtain ⟨x, y, hx, -⟩ := hswap
      rw [hx]
      exact List.mem_append_right x List.mem_cons_self
    obtain rfl : hq = hp :=
      eq_of_nam_eq wf (mem_all_of_mem_chain wf hq_mem) hp_mem (hq_nam.trans hp_nam.symm)
    have hall : Swapped hq hn ht.all (putReplaced M ht hq hn chain).all := by
      obtain ⟨a, b, hnodes, -, hset⟩ := nodes_split wf hn.nam
      unfold HashTable.all putReplaced
      rw [hset chain, hnodes]
      exact hswap.flatten a b
    refine ⟨chain, hswap, ?_, ?_, hall⟩
    · unfold addhashnodeWith
      rw [hsearch]
      rfl
    · obtain ⟨r, hr, hr'⟩ := hall.perm
      have hnames := wf.names
      rw [(hr.map HashNode.nam).nodup_iff] at hnames
      have haddrs := wf.addrs
      rw [(hr.map HashNode.addr).nodup_iff, List.map_cons, List.nodup_cons] at haddrs
      refine wellFormed_set wf rfl rfl ?_ ?_ ?_ ?_
      · intro n hmem
        obtain ⟨x, y, hx, rfl⟩ := hswap
        rw [hx]
        rcases List.mem_append.mp hmem with h | h
        · exact Or.inl (List.mem_append_left _ h)
        · rcases List.mem_cons.mp h with rfl | h
          · exact Or.inr rfl
          · exact Or.inl (List.mem_append_right x (List.mem_cons_of_mem hq h))
      · rw [(hr'.map HashNode.nam).nodup_iff, List.map_cons, ← hq_nam]
        exact hnames
      · rw [(hr'.map HashNode.addr).nodup_iff, List.map_cons, List.nodup_cons]
        refine ⟨?_, haddrs.2⟩
        intro hmem
        obtain ⟨n, hn_mem, heq⟩ := List.mem_map.mp hmem
        exact hfresh n (hr.mem_iff.mpr (List.mem_cons_of_mem hq hn_mem)) heq
      · show ht.ct = _
        rw [wf.count, hr.length_eq, hr'.length_eq, List.length_cons, List.length_cons]

theorem add_new (wf : WellFormed M ht) {hn : HashNode Name}
    (hget : gethashnode2 M ht hn.nam = none) (hfresh : ht.Fresh hn) :
    (∀ expand, addhashnodeWith M expand ht hn =
        if (putNew M ht hn).ct ≥ (putNew M ht hn).hsize * 2 ∧ (putNew M ht hn).scan = none then
          (expand (putNew M ht hn)).map (none, ·)
        else some (none, putNew M ht hn)) ∧
      WellFormed M (putNew M ht hn) ∧ Inserted hn ht.all (putNew M ht hn).all := by
  have hno := (gethashnode2_eq_none wf).mp hget
  have hall : Inserted hn ht.all (putNew M ht hn).all := by
    obtain ⟨a, b, hnodes, -, hset⟩ := nodes_split wf hn.nam
    unfold HashTable.all putNew
    rw [hset, hnodes]
    refine Inserted.flatten ⟨[], ht.chain M hn.nam, rfl, rfl⟩ a b
  refine ⟨?_, ?_, hall⟩
  · intro expand
    unfold addhashnodeWith
    cases hsearch : replaceNode hn (ht.chain M hn.nam) with
    | none => rfl
    | some r =>
      obtain ⟨hq, chain⟩ := r
      obtain ⟨hq_nam, x, y, hx, -⟩ := replaceNode_eq_some hsearch
      have hq_mem : hq ∈ ht.chain M hn.nam := by
        rw [hx]
        exact List.mem_append_right x List.mem_cons_self
      exact absurd hq_nam (hno hq (mem_all_of_mem_chain wf hq_mem))
  · refine wellFormed_set wf rfl rfl ?_ ?_ ?_ ?_
    · intro n hmem
      rcases List.mem_cons.mp hmem with rfl | h
      · exact Or.inr rfl
      · exact Or.inl h
    · rw [(hall.perm.map HashNode.nam).nodup_iff, List.map_cons, List.nodup_cons]
      refine ⟨?_, wf.names⟩
      intro hmem
      obtain ⟨n, hn_mem, heq⟩ := List.mem_map.mp hmem
      exact hno n hn_mem heq
    · rw [(hall.perm.map HashNode.addr).nodup_iff, List.map_cons, List.nodup_cons]
      refine ⟨?_, wf.addrs⟩
      intro hmem
      obtain ⟨n, hn_mem, heq⟩ := List.mem_map.mp hmem
      exact hfresh n hn_mem heq
    · show ht.ct + 1 = _
      rw [wf.count, hall.perm.length_eq, List.length_cons]

theorem remove_none (wf : WellFormed M ht) {nam : Name} (hget : gethashnode2 M ht nam = none) :
    removehashnode M ht nam = (none, ht) := by
  have hno := (gethashnode2_eq_none wf).mp hget
  unfold removehashnode
  cases hsearch : unlinkNode nam (ht.chain M nam) with
  | none => rfl
  | some r =>
    obtain ⟨hq, next, chain⟩ := r
    obtain ⟨hq_nam, x, y, hx, -⟩ := unlinkNode_eq_some hsearch
    have hq_mem : hq ∈ ht.chain M nam := by
      rw [hx]
      exact List.mem_append_right x List.mem_cons_self
    exact absurd hq_nam (hno hq (mem_all_of_mem_chain wf hq_mem))

theorem remove_some (wf : WellFormed M ht) {nam : Name} {hp : HashNode Name}
    (hget : gethashnode2 M ht nam = some hp) :
    ∃ x y, ht.chain M nam = x ++ hp :: y ∧
      removehashnode M ht nam =
        (some hp, putRemoved M ht hp (y.head?.map HashNode.addr) (x ++ y)) ∧
      WellFormed M (putRemoved M ht hp (y.head?.map HashNode.addr) (x ++ y)) ∧
      Inserted hp (putRemoved M ht hp (y.head?.map HashNode.addr) (x ++ y)).all ht.all := by
  obtain ⟨hp_mem, rfl⟩ := (gethashnode2_eq_some wf).mp hget
  cases hsearch : unlinkNode hp.nam (ht.chain M hp.nam) with
  | none =>
    exact absurd rfl (unlinkNode_eq_none hsearch hp (mem_chain_of_mem_all wf hp_mem))
  | some r =>
    obtain ⟨hq, next, chain⟩ := r
    obtain ⟨hq_nam, x, y, hx, hchain, hnext⟩ := unlinkNode_eq_some hsearch
    have hq_mem : hq ∈ ht.chain M hp.nam := by
      rw [hx]
      exact List.mem_append_right x List.mem_cons_self
    obtain rfl : hq = hp := eq_of_nam_eq wf (mem_all_of_mem_chain wf hq_mem) hp_mem hq_nam
    have hall : Inserted hq (putRemoved M ht hq (y.head?.map HashNode.addr) (x ++ y)).all
        ht.all := by
      obtain ⟨a, b, hnodes, -, hset⟩ := nodes_split wf hq.nam
      unfold HashTable.all putRemoved
      rw [hset, hnodes, hx]
      exact Inserted.flatten ⟨x, y, rfl, rfl⟩ a b
    refine ⟨x, y, hx, ?_, ?_, hall⟩
    · unfold removehashnode
      rw [hsearch, hchain, hnext]
      rfl
    · have hnames := wf.names
      rw [(hall.perm.map HashNode.nam).nodup_iff, List.map_cons, List.nodup_cons] at hnames
      have haddrs := wf.addrs
      rw [(hall.perm.map HashNode.addr).nodup_iff, List.map_cons, List.nodup_cons] at haddrs
      refine wellFormed_set wf rfl rfl ?_ hnames.2 haddrs.2 ?_
      · intro n hmem
        rw [hx]
        rcases List.mem_append.mp hmem with h | h
        · exact Or.inl (List.mem_append_left _ h)
        · exact Or.inl (List.mem_append_right x (List.mem_cons_of_mem hq h))
      · show ht.ct - 1 = _
        rw [wf.count, hall.perm.length_eq, List.length_cons, Nat.add_sub_cancel]

/-- `expand` moves the nodes into a table that is four times as large or larger. -/
def Expands (expand : HashTable Name → Option (HashTable Name)) (ht : HashTable Name) : Prop :=
  ∃ ht', expand ht = some ht' ∧ WellFormed M ht' ∧ ht'.all.Perm ht.all ∧ ht'.scan = none ∧
    ht.hsize * 4 ≤ ht'.hsize ∧ ht'.ct < ht'.hsize * 2

omit [DecidableEq Name] in
theorem wellFormed_empty {size : Nat} (h : 0 < size) (scan : Option ScanStatus) :
    WellFormed M { hsize := size, ct := 0, nodes := List.replicate size [], scan := scan } where
  pos := h
  length := List.length_replicate
  placed := by
    intro i chain hi hn hmem
    have hchain := List.eq_of_mem_replicate (List.mem_of_getElem? hi)
    rw [hchain] at hmem
    exact absurd hmem List.not_mem_nil
  names := by
    show ((List.replicate size []).flatten.map HashNode.nam).Nodup
    rw [List.flatten_replicate_nil]
    exact List.nodup_nil
  addrs := by
    show ((List.replicate size []).flatten.map HashNode.addr).Nodup
    rw [List.flatten_replicate_nil]
    exact List.nodup_nil
  count := by
    show 0 = (List.replicate size []).flatten.length
    rw [List.flatten_replicate_nil]
    rfl

/-- The loop of `expandhashtable`.  Either so few nodes are left that it does not come to expand
again, or an expansion in between works. -/
theorem rehash {depth : Nat} (l : List (HashNode Name)) :
    ∀ ht : HashTable Name, WellFormed M ht → ht.scan = none → ht.ct < ht.hsize * 2 →
      ((l ++ ht.all).map HashNode.nam).Nodup → ((l ++ ht.all).map HashNode.addr).Nodup →
      (ht.ct + l.length < ht.hsize * 2 ∨
        ∀ t : HashTable Name, WellFormed M t → t.scan = none → t.ct ≤ t.hsize * 2 →
          Expands (M := M) (expandhashtable M depth) t) →
      ∃ ht', l.foldlM
          (fun ht hn => (addhashnodeWith M (expandhashtable M depth) ht hn).map Prod.snd) ht =
            some ht' ∧
        WellFormed M ht' ∧ ht'.all.Perm (l ++ ht.all) ∧ ht'.scan = none ∧
        ht.hsize ≤ ht'.hsize ∧ ht'.ct < ht'.hsize * 2 := by
  induction l with
  | nil =>
    intro ht wf hscan hct _ _ _
    exact ⟨ht, rfl, wf, List.Perm.refl _, hscan, Nat.le_refl _, hct⟩
  | cons hn l ih =>
    intro ht wf hscan hct hnames haddrs hexpand
    have hget : gethashnode2 M ht hn.nam = none := by
      refine (gethashnode2_eq_none wf).mpr (fun n hmem heq => ?_)
      rw [List.cons_append, List.map_cons, List.nodup_cons] at hnames
      exact hnames.1 (heq ▸ List.mem_map_of_mem (List.mem_append_right l hmem))
    have hfresh : ht.Fresh hn := by
      intro n hmem heq
      rw [List.cons_append, List.map_cons, List.nodup_cons] at haddrs
      exact haddrs.1 (heq ▸ List.mem_map_of_mem (List.mem_append_right l hmem))
    obtain ⟨hadd, wf', hins⟩ := add_new wf hget hfresh
    have hperm : (l ++ (putNew M ht hn).all).Perm (hn :: l ++ ht.all) :=
      (hins.perm.append_left l).trans List.perm_middle
    rw [List.foldlM_cons, hadd]
    split
    · next hfull =>
      have hfull' : ht.hsize * 2 ≤ ht.ct + 1 := hfull.1
      have hagain : ∀ t : HashTable Name, WellFormed M t → t.scan = none → t.ct ≤ t.hsize * 2 →
          Expands (M := M) (expandhashtable M depth) t := by
        rcases hexpand with hfew | hagain
        · rw [List.length_cons] at hfew
          omega
        · exact hagain
      have hct' : (putNew M ht hn).ct ≤ (putNew M ht hn).hsize * 2 := by
        show ht.ct + 1 ≤ ht.hsize * 2
        omega
      obtain ⟨t, hrun, wft, hpermt, hscant, hsize, hctt⟩ := hagain _ wf' hfull.2 hct'
      have hpermt' : (l ++ t.all).Perm (hn :: l ++ ht.all) := (hpermt.append_left l).trans hperm
      obtain ⟨ht', hrun', wf'', hperm', hscan', hsize', hct''⟩ := ih t wft hscant hctt
        ((hpermt'.map HashNode.nam).nodup_iff.mpr hnames)
        ((hpermt'.map HashNode.addr).nodup_iff.mpr haddrs) (Or.inr hagain)
      have hsame : (putNew M ht hn).hsize = ht.hsize := rfl
      refine ⟨ht', ?_, wf'', hperm'.trans hpermt', hscan', by omega, hct''⟩
      rw [hrun]
      exact hrun'
    · next hroom =>
      have hct' : (putNew M ht hn).ct < (putNew M ht hn).hsize * 2 := by
        by_contra h
        exact hroom ⟨Nat.le_of_not_lt h, hscan⟩
      have hexpand' : (putNew M ht hn).ct + l.length < (putNew M ht hn).hsize * 2 ∨
          ∀ t : HashTable Name, WellFormed M t → t.scan = none → t.ct ≤ t.hsize * 2 →
            Expands (M := M) (expandhashtable M depth) t := by
        rcases hexpand with hfew | hagain
        · left
          show ht.ct + 1 + l.length < ht.hsize * 2
          rw [List.length_cons] at hfew
          omega
        · exact Or.inr hagain
      obtain ⟨ht', hrun', wf'', hperm', hscan', hsize', hct''⟩ := ih _ wf' hscan hct'
        ((hperm.map HashNode.nam).nodup_iff.mpr hnames)
        ((hperm.map HashNode.addr).nodup_iff.mpr haddrs) hexpand'
      exact ⟨ht', hrun', wf'', hperm'.trans hperm, hscan', hsize', hct''⟩

theorem expandhashtable_succ {depth : Nat} (wf : WellFormed M ht) (hscan : ht.scan = none)
    (h : ht.ct < ht.hsize * 8 ∨
      ∀ t : HashTable Name, WellFormed M t → t.scan = none → t.ct ≤ t.hsize * 2 →
        Expands (M := M) (expandhashtable M depth) t) :
    Expands (M := M) (expandhashtable M (depth + 1)) ht := by
  have hpos : 0 < ht.hsize * 4 := Nat.mul_pos wf.pos (by decide)
  have hempty : (List.replicate (ht.hsize * 4) ([] : List (HashNode Name))).flatten = [] :=
    List.flatten_replicate_nil
  have happend (t : HashTable Name) (ht0 : t.all = []) : ht.all ++ t.all = ht.all := by
    rw [ht0, List.append_nil]
  have hstart := happend
    { ht with hsize := ht.hsize * 4, nodes := List.replicate (ht.hsize * 4) [], ct := 0 } hempty
  obtain ⟨ht', hrun, wf', hperm, hscan', hsize, hct⟩ := rehash ht.all
    { ht with hsize := ht.hsize * 4, nodes := List.replicate (ht.hsize * 4) [], ct := 0 }
    (wellFormed_empty hpos ht.scan) hscan (by show 0 < ht.hsize * 4 * 2; omega)
    (by rw [hstart]; exact wf.names) (by rw [hstart]; exact wf.addrs)
    (h.imp_left (fun hfew => by
      rw [wf.count] at hfew
      show 0 + ht.all.length < ht.hsize * 4 * 2
      omega))
  rw [hstart] at hperm
  exact ⟨ht', hrun, wf', hperm, hscan', hsize, hct⟩

theorem expandhashtable_expands (wf : WellFormed M ht) (hscan : ht.scan = none) :
    Expands (M := M) (expandhashtable M 2) ht := by
  refine expandhashtable_succ wf hscan (Or.inr (fun t wft hscant hct => ?_))
  refine expandhashtable_succ wft hscant (Or.inl ?_)
  have hpos := wft.pos
  omega

end Bucket

section FiniteMap

variable [DecidableEq Name]

/-- Between two scans a table is a finite map from names to nodes, and `ct` is the number of its
names. -/
structure FiniteMap (ht : HashTable Name) : Prop where
  names : (ht.all.map HashNode.nam).Nodup
  count : ht.ct = (ht.all.map HashNode.nam).length
  get : ∀ nam hn, gethashnode2 M ht nam = some hn ↔ hn ∈ ht.all ∧ hn.nam = nam
  add : ∀ hn, ht.Fresh hn →
    ∃ ht', addhashnode2 M ht hn = some (gethashnode2 M ht hn.nam, ht') ∧
      WellFormed M ht' ∧ ht'.scan = none ∧
      ∀ nam, gethashnode2 M ht' nam = if nam = hn.nam then some hn else gethashnode2 M ht nam
  remove : ∀ nam, ∃ ht', removehashnode M ht nam = (gethashnode2 M ht nam, ht') ∧
    WellFormed M ht' ∧ ht'.scan = none ∧
    ∀ n, gethashnode2 M ht' n = if n = nam then none else gethashnode2 M ht n
  expand : ∃ ht', expandhashtable M 2 ht = some ht' ∧ WellFormed M ht' ∧ ht'.scan = none ∧
    ht.hsize * 4 ≤ ht'.hsize ∧ ht'.ct = ht.ct ∧
    ∀ nam, gethashnode2 M ht' nam = gethashnode2 M ht nam

variable {M} {ht ht' : HashTable Name}

theorem get_of_swapped (wf : WellFormed M ht) (wf' : WellFormed M ht') {hp hn : HashNode Name}
    (hnam : hp.nam = hn.nam) (h : Swapped hp hn ht.all ht'.all) (nam : Name) :
    gethashnode2 M ht' nam = if nam = hn.nam then some hn else gethashnode2 M ht nam := by
  obtain ⟨r, hr, hr'⟩ := h.perm
  split
  · next hsame =>
    exact (gethashnode2_eq_some wf').mpr ⟨hr'.mem_iff.mpr List.mem_cons_self, hsame.symm⟩
  · next hother =>
    ext n
    rw [gethashnode2_eq_some wf, gethashnode2_eq_some wf', hr.mem_iff, hr'.mem_iff]
    constructor
    · rintro ⟨hmem, rfl⟩
      rcases List.mem_cons.mp hmem with rfl | hmem
      · exact absurd rfl hother
      · exact ⟨List.mem_cons_of_mem hp hmem, rfl⟩
    · rintro ⟨hmem, rfl⟩
      rcases List.mem_cons.mp hmem with rfl | hmem
      · exact absurd hnam hother
      · exact ⟨List.mem_cons_of_mem hn hmem, rfl⟩

theorem get_of_inserted (wf : WellFormed M ht) (wf' : WellFormed M ht') {hn : HashNode Name}
    (h : ht'.all.Perm (hn :: ht.all)) (nam : Name) :
    gethashnode2 M ht' nam = if nam = hn.nam then some hn else gethashnode2 M ht nam := by
  split
  · next hsame =>
    exact (gethashnode2_eq_some wf').mpr ⟨h.mem_iff.mpr List.mem_cons_self, hsame.symm⟩
  · next hother =>
    ext n
    rw [gethashnode2_eq_some wf, gethashnode2_eq_some wf', h.mem_iff]
    constructor
    · rintro ⟨hmem, rfl⟩
      rcases List.mem_cons.mp hmem with rfl | hmem
      · exact absurd rfl hother
      · exact ⟨hmem, rfl⟩
    · rintro ⟨hmem, rfl⟩
      exact ⟨List.mem_cons_of_mem hn hmem, rfl⟩

theorem get_of_removed (wf : WellFormed M ht) (wf' : WellFormed M ht') {hp : HashNode Name}
    (h : ht.all.Perm (hp :: ht'.all)) (nam : Name) :
    gethashnode2 M ht' nam = if nam = hp.nam then none else gethashnode2 M ht nam := by
  have hnames := wf.names
  rw [(h.map HashNode.nam).nodup_iff, List.map_cons, List.nodup_cons] at hnames
  split
  · next hsame =>
    refine (gethashnode2_eq_none wf').mpr (fun n hmem heq => ?_)
    exact hnames.1 (hsame ▸ heq ▸ List.mem_map_of_mem hmem)
  · next hother =>
    ext n
    rw [gethashnode2_eq_some wf, gethashnode2_eq_some wf', h.mem_iff]
    constructor
    · rintro ⟨hmem, rfl⟩
      exact ⟨List.mem_cons_of_mem hp hmem, rfl⟩
    · rintro ⟨hmem, rfl⟩
      rcases List.mem_cons.mp hmem with rfl | hmem
      · exact absurd rfl hother
      · exact ⟨hmem, rfl⟩

theorem finiteMap_of_wellFormed (wf : WellFormed M ht) (hscan : ht.scan = none) :
    FiniteMap M ht where
  names := wf.names
  count := by rw [List.length_map]; exact wf.count
  get := fun _ _ => gethashnode2_eq_some wf
  add := by
    intro hn hfresh
    unfold addhashnode2
    cases hget : gethashnode2 M ht hn.nam with
    | some hp =>
      obtain ⟨chain, -, hadd, wf', hall⟩ := add_replaced wf hget hfresh (expandhashtable M 2)
      obtain ⟨-, hnam⟩ := (gethashnode2_eq_some wf).mp hget
      refine ⟨_, hadd, wf', ?_, get_of_swapped wf wf' hnam hall⟩
      show ht.scan.map _ = none
      rw [hscan]
      rfl
    | none =>
      obtain ⟨hadd, wf', hall⟩ := add_new wf hget hfresh
      rw [hadd]
      split
      · next hfull =>
        obtain ⟨ht', hrun, wf'', hperm, hscan', -, -⟩ := expandhashtable_expands wf' hfull.2
        rw [hrun]
        exact ⟨ht', rfl, wf'', hscan', get_of_inserted wf wf'' (hperm.trans hall.perm)⟩
      · exact ⟨_, rfl, wf', hscan, get_of_inserted wf wf' hall.perm⟩
  remove := by
    intro nam
    cases hget : gethashnode2 M ht nam with
    | none =>
      refine ⟨ht, remove_none wf hget, wf, hscan, fun n => ?_⟩
      split
      · next hsame => rw [hsame, hget]
      · rfl
    | some hp =>
      obtain ⟨x, y, -, hremove, wf', hall⟩ := remove_some wf hget
      obtain ⟨-, rfl⟩ := (gethashnode2_eq_some wf).mp hget
      refine ⟨_, hremove, wf', ?_, get_of_removed wf wf' hall.perm⟩
      show ht.scan.map _ = none
      rw [hscan]
      rfl
  expand := by
    obtain ⟨ht', hrun, wf', hperm, hscan', hsize, -⟩ := expandhashtable_expands wf hscan
    refine ⟨ht', hrun, wf', hscan', hsize, ?_, gethashnode2_perm wf wf' hperm⟩
    rw [wf.count, wf'.count, hperm.length_eq]

end FiniteMap

end NextBSD.Zsh
