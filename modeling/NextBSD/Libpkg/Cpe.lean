import Mathlib.Data.List.Nodup
import Mathlib.Data.List.ReduceOption
import NextBSD.Libpkg.Manifest.Types

/-!
# pkg_cpe.c: CPE names

The writer leaves nothing between two colons for an field that is not set.  The tokens of
`strtok` are never empty, so that the parser gives the place of such an field to the next one.
-/

namespace NextBSD.Libpkg.Cpe

open Manifest (Bytes ascii)

/-- The attributes of `struct pkg_audit_cpe` that are strings. -/
inductive Field where
  | vendor | product | version | update | edition | language | swEdition | targetSw | targetHw
  | other
  deriving DecidableEq, Repr

def Field.order : List Field :=
  [.vendor, .product, .version, .update, .edition, .language, .swEdition, .targetSw, .targetHw,
    .other]

structure PkgAuditCpe where
  versionMajor : Nat
  versionMinor : Nat
  part : UInt8
  field : Field → Option Bytes

def pkgCpeNew : PkgAuditCpe :=
  { versionMajor := 0, versionMinor := 0, part := 0, field := fun _ => none }

def cpeApplications : UInt8 := 97

def cpeHarware : UInt8 := 104

def cpeOperatingSystems : UInt8 := 104

def cpeParts (cpe : PkgAuditCpe) : List Bytes := Field.order.map fun a => (cpe.field a).getD []

/-- `cpe:2.3:%c` and the parts, with colons between. -/
def pkgCpeCreate (cpe : PkgAuditCpe) : Bytes :=
  List.intercalate [58] ([99, 112, 101] :: [50, 46, 51] :: [cpe.part] :: cpeParts cpe)

def isdigit (c : UInt8) : Bool := 48 ≤ c && c ≤ 57

/-- What `strtok` finds one after the other, each with the pieces behind its colon. -/
def tokens : List Bytes → List (Bytes × List Bytes)
  | [] => []
  | token :: behind => if token = [] then tokens behind else (token, behind) :: tokens behind

/-- `cpe_token[2]`.  The end of a token is a `NUL`, behind which the string goes on; `none` is
behind its end. -/
def thirdByte : Bytes × List Bytes → Option UInt8
  | (_ :: _ :: c :: _, _) => some c
  | ([_, _], _) => some 0
  | (_, []) => none
  | (_, (c :: _) :: _) => some c
  | (_, [[]]) => some 0
  | (_, [] :: _ :: _) => some 58

/-- The switch over `loc`: `none` is a read behind the string, `some none` an error. -/
def parseToken (loc : Nat) (token : Bytes × List Bytes) (cpe : PkgAuditCpe) :
    Option (Option PkgAuditCpe) :=
  if loc = 0 then some (if token.1.take 3 = [99, 112, 101] then some cpe else none)
  else if loc = 1 then
    if isdigit (token.1.headD 0) then do
      let minor ← thirdByte token
      if isdigit minor = false then some none
      else
        let cpe := { cpe with
          versionMajor := (token.1.headD 0 - 48).toNat, versionMinor := (minor - 48).toNat }
        some (if cpe.versionMajor ≠ 2 ∨ cpe.versionMinor ≠ 3 then none else some cpe)
    else some none
  else if loc = 2 then
    let part := token.1.headD 0
    some (if part ≠ cpeApplications ∧ part ≠ cpeHarware ∧ part ≠ cpeOperatingSystems then none
      else some { cpe with part := part })
  else
    match Field.order[loc - 3]? with
    | some a => some (some { cpe with field := Function.update cpe.field a (some token.1) })
    | none => some (some cpe)

def parseLoop : Nat → List (Bytes × List Bytes) → PkgAuditCpe → Option (Option PkgAuditCpe)
  | loc, [], cpe => some (if loc ≤ 3 then none else some cpe)
  | loc, token :: rest, cpe => do
    match ← parseToken loc token cpe with
    | none => some none
    | some cpe =>
      if 13 ≤ loc + 1 ∧ rest ≠ [] then some (some cpe) else parseLoop (loc + 1) rest cpe

def pkgCpeParse (cpeStr : Bytes) : Option (Option PkgAuditCpe) :=
  if cpeStr.length < 8 then some none else parseLoop 0 (tokens (cpeStr.splitOn 58)) pkgCpeNew

/-- A record that can be named: the part is one of three, the attributes that are set are not empty
and have no colon, and the vendor is set. -/
structure Named (cpe : PkgAuditCpe) : Prop where
  part : cpe.part = 97 ∨ cpe.part = 104 ∨ cpe.part = 111
  field : ∀ a value, cpe.field a = some value → value ≠ [] ∧ 58 ∉ value
  vendor : ∃ value, cpe.field .vendor = some value

def RoundTrips (cpe : PkgAuditCpe) : Prop :=
  ∃ cpe', pkgCpeParse (pkgCpeCreate cpe) = some (some cpe') ∧ cpe'.part = cpe.part ∧
    ∀ a, cpe'.field a = cpe.field a

def SetInFront (cpe : PkgAuditCpe) : Prop :=
  Field.order.Pairwise fun a b => cpe.field a = none → cpe.field b = none

def Field.index (a : Field) : Nat := Field.order.idxOf a

theorem Field.getElem?_index (a : Field) : Field.order[a.index]? = some a := by
  cases a <;> decide

theorem Field.getElem?_eq_some {i : Nat} {a : Field} : Field.order[i]? = some a ↔ i = a.index := by
  constructor
  · intro h
    have hnodup : Field.order.Nodup := by decide
    obtain ⟨hi, hget⟩ := List.getElem?_eq_some_iff.mp h
    obtain ⟨hi', hget'⟩ := List.getElem?_eq_some_iff.mp a.getElem?_index
    exact hnodup.getElem_inj_iff.mp (hget.trans hget'.symm)
  · rintro rfl
    exact a.getElem?_index

def setValues (cpe : PkgAuditCpe) : List Bytes := (Field.order.map cpe.field).reduceOption

theorem reduceOption_getElem?_iff {α : Type} (l : List (Option α)) :
    (∀ i : Nat, l.reduceOption[i]? = l[i]?.join) ↔ l.Pairwise fun x y => x = none → y = none := by
  induction l with
  | nil => exact iff_of_true (fun _ => rfl) List.Pairwise.nil
  | cons x l ih =>
    rw [List.pairwise_cons]
    cases x with
    | some a =>
      rw [List.reduceOption_cons_of_some]
      constructor
      · intro h
        exact ⟨fun y _ hno => absurd hno (Option.some_ne_none a), ih.mp fun i => h (i + 1)⟩
      · rintro ⟨-, h⟩ i
        cases i with
        | zero => rfl
        | succ i => exact ih.mpr h i
    | none =>
      rw [List.reduceOption_cons_of_none]
      constructor
      · intro h
        have hnil : l.reduceOption = [] := List.getElem?_eq_none_iff.mp (h 0) |> fun hlen =>
          List.eq_nil_of_length_eq_zero (Nat.le_zero.mp hlen)
        have hall : ∀ y ∈ l, y = none := by
          intro y hy
          cases y with
          | none => rfl
          | some a =>
            have hmem := List.reduceOption_mem_iff.mpr hy
            rw [hnil] at hmem
            exact absurd hmem List.not_mem_nil
        exact ⟨fun y hy _ => hall y hy, List.pairwise_of_forall_mem_list fun x _ y hy _ => hall y hy⟩
      · rintro ⟨hall, -⟩ i
        have hnone : ∀ y ∈ l, y = none := fun y hy => hall y hy rfl
        have hnil : l.reduceOption = [] := by
          refine List.eq_nil_iff_forall_not_mem.mpr fun a ha => ?_
          exact Option.some_ne_none a (hnone _ (List.reduceOption_mem_iff.mp ha))
        rw [hnil]
        cases i with
        | zero => rfl
        | succ i =>
          show none = l[i]?.join
          cases hi : l[i]? with
          | none => rfl
          | some y => rw [hnone y (List.mem_of_getElem? hi)]; rfl

theorem setInFront_iff {cpe : PkgAuditCpe} :
    SetInFront cpe ↔ ∀ a, (setValues cpe)[a.index]? = cpe.field a := by
  unfold SetInFront setValues
  rw [← List.pairwise_map (f := cpe.field) (R := fun x y => x = none → y = none),
    ← reduceOption_getElem?_iff]
  constructor
  · intro h a
    rw [h, List.getElem?_map, a.getElem?_index]
    rfl
  · intro h i
    cases hi : Field.order[i]? with
    | some a =>
      rw [Field.getElem?_eq_some.mp hi, h, List.getElem?_map, a.getElem?_index]
      rfl
    | none =>
      have hlength := List.reduceOption_length_le (Field.order.map cpe.field)
      rw [List.length_map] at hlength
      rw [List.getElem?_map, hi]
      exact List.getElem?_eq_none (Nat.le_trans hlength (List.getElem?_eq_none_iff.mp hi))

/-! ## Reading a name -/

theorem tokens_cons_of_ne_nil {token : Bytes} (h : token ≠ []) (behind : List Bytes) :
    tokens (token :: behind) = (token, behind) :: tokens behind := if_neg h

theorem tokens_map_getD {l : List (Option Bytes)} (h : ∀ value, some value ∈ l → value ≠ []) :
    (tokens (l.map (·.getD []))).map Prod.fst = l.reduceOption := by
  induction l with
  | nil => rfl
  | cons x l ih =>
    have htail := ih fun value hvalue => h value (List.mem_cons_of_mem x hvalue)
    cases x with
    | none =>
      rw [List.reduceOption_cons_of_none, ← htail]
      rfl
    | some value =>
      rw [List.reduceOption_cons_of_some, ← htail, List.map_cons, Option.getD_some,
        tokens_cons_of_ne_nil (h value List.mem_cons_self), List.map_cons]

theorem parseLoop_cons {loc : Nat} (hloc : loc < 12) {token : Bytes × List Bytes}
    {cpe cpe' : PkgAuditCpe} (h : parseToken loc token cpe = some (some cpe'))
    (rest : List (Bytes × List Bytes)) :
    parseLoop loc (token :: rest) cpe = parseLoop (loc + 1) rest cpe' := by
  conv_lhs => unfold parseLoop
  rw [h, Option.bind_eq_bind, Option.bind_some]
  dsimp only
  rw [if_neg fun hno => absurd hno.1 (by omega)]

theorem parseLoop_fields {i : Nat} {ts : List (Bytes × List Bytes)} (cpe : PkgAuditCpe)
    (hle : i + ts.length ≤ 10) (hpos : 1 ≤ i + ts.length) :
    parseLoop (3 + i) ts cpe = some (some { cpe with
      field := fun a => if i ≤ a.index ∧ a.index < i + ts.length then
        (ts.map Prod.fst)[a.index - i]? else cpe.field a }) := by
  induction ts generalizing i cpe with
  | nil =>
    unfold parseLoop
    have hloc : ¬ 3 + i ≤ 3 := by
      rw [List.length_nil] at hpos
      omega
    have hfield : (fun a : Field => if i ≤ a.index ∧ a.index < i + ([] : List (Bytes × List Bytes)).length
        then (([] : List (Bytes × List Bytes)).map Prod.fst)[a.index - i]? else cpe.field a) =
          cpe.field := by
      funext a
      rw [List.length_nil, if_neg (by omega)]
    rw [if_neg hloc, hfield]
  | cons token ts ih =>
    rw [List.length_cons] at hle hpos
    obtain ⟨a, ha⟩ : ∃ a, Field.order[i]? = some a := by
      have hi : i < Field.order.length := show i < 10 by omega
      exact ⟨_, List.getElem?_eq_getElem hi⟩
    have hindex := Field.getElem?_eq_some.mp ha
    have htoken : parseToken (3 + i) token cpe =
        some (some { cpe with field := Function.update cpe.field a (some token.1) }) := by
      have hloc : 3 + i - 3 = i := by omega
      unfold parseToken
      rw [if_neg (by omega), if_neg (by omega), if_neg (by omega), hloc, ha]
    have hgo : ¬ (13 ≤ 3 + i + 1 ∧ ts ≠ []) := by
      rintro ⟨hlast, hne⟩
      have hlength := List.length_pos_iff.mpr hne
      omega
    unfold parseLoop
    rw [htoken, Option.bind_eq_bind, Option.bind_some]
    dsimp only
    rw [if_neg hgo, Nat.add_assoc, ih _ (by omega) (by omega)]
    congr 3
    funext b
    by_cases hb : b.index = i
    · obtain rfl : b = a := by
        have hsame := b.getElem?_index
        rw [hb, ha] at hsame
        exact (Option.some.inj hsame).symm
      rw [if_neg (by omega), if_pos (by rw [List.length_cons]; omega), hb, Nat.sub_self]
      exact Function.update_self _ _ _
    · have hne : b ≠ a := fun heq => hb (heq ▸ hindex.symm)
      dsimp only
      rw [Function.update_of_ne hne, List.length_cons]
      by_cases hlow : i ≤ b.index ∧ b.index < i + (ts.length + 1)
      · have hsub : b.index - i = b.index - (i + 1) + 1 := by omega
        rw [if_pos (by omega), if_pos hlow, hsub, List.map_cons, List.getElem?_cons_succ]
      · rw [if_neg (by omega), if_neg hlow]

theorem splitOn_create {cpe : PkgAuditCpe} (h : Named cpe) :
    (pkgCpeCreate cpe).splitOn 58 =
      [99, 112, 101] :: [50, 46, 51] :: [cpe.part] :: cpeParts cpe := by
  refine List.splitOn_intercalate 58 ?_ (List.cons_ne_nil _ _)
  have hpart : 58 ∉ [cpe.part] := by
    rcases h.part with hpart | hpart | hpart <;> rw [hpart] <;> decide
  have hparts : ∀ value ∈ cpeParts cpe, 58 ∉ value := by
    intro value hvalue
    obtain ⟨a, -, rfl⟩ := List.mem_map.mp hvalue
    cases ha : cpe.field a with
    | none => exact List.not_mem_nil
    | some value => exact (h.field a value ha).2
  rw [List.forall_mem_cons, List.forall_mem_cons, List.forall_mem_cons]
  exact ⟨by decide, by decide, hpart, hparts⟩

theorem setValues_length_le (cpe : PkgAuditCpe) : (setValues cpe).length ≤ 10 := by
  have hlength := List.reduceOption_length_le (Field.order.map cpe.field)
  rwa [List.length_map] at hlength

theorem tokens_parts {cpe : PkgAuditCpe} (h : Named cpe) :
    (tokens (cpeParts cpe)).map Prod.fst = setValues cpe := by
  have hmap : cpeParts cpe = (Field.order.map cpe.field).map (·.getD []) := by
    unfold cpeParts
    rw [List.map_map]
    rfl
  rw [hmap]
  refine tokens_map_getD fun value hvalue => ?_
  obtain ⟨a, -, ha⟩ := List.mem_map.mp hvalue
  exact (h.field a value ha).1

theorem pkgCpeParse_create {cpe : PkgAuditCpe} (h : Named cpe) :
    pkgCpeParse (pkgCpeCreate cpe) = some (if cpe.part = 111 then none
      else some { versionMajor := 2, versionMinor := 3, part := cpe.part,
                  field := fun a => (setValues cpe)[a.index]? }) := by
  have hlength : ¬ (pkgCpeCreate cpe).length < 8 := by
    unfold pkgCpeCreate
    rw [List.intercalate_cons_cons, List.intercalate_cons_cons]
    simp only [List.length_append, List.length_cons, List.length_nil]
    omega
  have hsets := tokens_parts h
  have hcount : (tokens (cpeParts cpe)).length = (setValues cpe).length := by
    rw [← hsets, List.length_map]
  have hle := setValues_length_le cpe
  have hpos : 1 ≤ (setValues cpe).length := by
    obtain ⟨value, hvalue⟩ := h.vendor
    refine List.length_pos_of_mem (a := value) (List.reduceOption_mem_iff.mpr ?_)
    exact List.mem_map.mpr ⟨.vendor, by decide, hvalue⟩
  have hne : tokens (cpeParts cpe) ≠ [] := List.ne_nil_of_length_pos (by omega)
  unfold pkgCpeParse
  rw [if_neg hlength, splitOn_create h, tokens_cons_of_ne_nil (by decide),
    tokens_cons_of_ne_nil (by decide), tokens_cons_of_ne_nil (List.cons_ne_nil _ _)]
  have hfront : ∀ ts behind behind', parseLoop 0 (([99, 112, 101], behind) ::
      ([50, 46, 51], behind') :: ts) pkgCpeNew =
        parseLoop 2 ts { pkgCpeNew with versionMajor := 2, versionMinor := 3 } := by
    intro ts behind behind'
    have hname : parseToken 0 ([99, 112, 101], behind) pkgCpeNew = some (some pkgCpeNew) := rfl
    have hversion : parseToken 1 ([50, 46, 51], behind') pkgCpeNew =
        some (some { pkgCpeNew with versionMajor := 2, versionMinor := 3 }) := by
      have hdigits : isdigit 50 = true ∧ isdigit 51 = true := by decide
      have hmajor : ((50 : UInt8) - 48).toNat = 2 := by decide
      have hminor : ((51 : UInt8) - 48).toNat = 3 := by decide
      unfold parseToken thirdByte
      rw [if_neg (by decide), if_pos rfl, List.headD_cons, if_pos hdigits.1, Option.bind_eq_bind,
        Option.bind_some, if_neg (by rw [hdigits.2]; decide), hmajor, hminor]
      rfl
    rw [parseLoop_cons (by decide) hname, parseLoop_cons (by decide) hversion]
  rw [hfront]
  have hknown : cpe.part ≠ 111 → parseToken 2 ([cpe.part], cpeParts cpe)
      { pkgCpeNew with versionMajor := 2, versionMinor := 3 } =
        some (some { pkgCpeNew with versionMajor := 2, versionMinor := 3, part := cpe.part }) := by
    intro hno
    rcases h.part with hpart | hpart | hpart
    · rw [hpart]
      rfl
    · rw [hpart]
      rfl
    · exact absurd hpart hno
  by_cases hother : cpe.part = 111
  · rw [if_pos hother, hother]
    rfl
  · rw [if_neg hother, parseLoop_cons (by decide) (hknown hother)]
    have hfields := @parseLoop_fields 0 (tokens (cpeParts cpe))
      { pkgCpeNew with versionMajor := 2, versionMinor := 3, part := cpe.part } (by omega) (by omega)
    refine hfields.trans ?_
    congr 3
    funext a
    rw [hsets, hcount, Nat.zero_add, Nat.sub_zero]
    by_cases ha : a.index < (setValues cpe).length
    · rw [if_pos ⟨Nat.zero_le _, ha⟩]
    · rw [if_neg fun hno => ha hno.2, List.getElem?_eq_none (Nat.not_lt.mp ha)]
      rfl

/-- A name round-trips exactly when the part is not the one that the parser does not know, and no
attribute is set behind one that is not; and then the whole record comes back if it is of version
2.3. -/
theorem pkgCpeParse_iff {cpe : PkgAuditCpe} (h : Named cpe) :
    (RoundTrips cpe ↔ cpe.part ≠ 111 ∧ SetInFront cpe) ∧
      (pkgCpeParse (pkgCpeCreate cpe) = some (some cpe) ↔
        (cpe.part ≠ 111 ∧ SetInFront cpe) ∧ cpe.versionMajor = 2 ∧ cpe.versionMinor = 3) := by
  have hparse := pkgCpeParse_create h
  rw [setInFront_iff]
  unfold RoundTrips
  rw [hparse]
  by_cases hother : cpe.part = 111
  · rw [if_pos hother]
    refine ⟨iff_of_false ?_ fun hno => hno.1 hother, iff_of_false ?_ fun hno => hno.1.1 hother⟩
    · rintro ⟨cpe', hnone, -⟩
      exact Option.some_ne_none _ (Option.some.inj hnone).symm
    · exact fun hnone => Option.some_ne_none _ (Option.some.inj hnone).symm
  · rw [if_neg hother]
    refine ⟨⟨?_, ?_⟩, ⟨?_, ?_⟩⟩
    · rintro ⟨cpe', hsome, -, hfields⟩
      obtain rfl := Option.some.inj (Option.some.inj hsome)
      exact ⟨hother, hfields⟩
    · rintro ⟨-, hfields⟩
      exact ⟨_, rfl, rfl, hfields⟩
    · intro hsome
      have hsame := Option.some.inj (Option.some.inj hsome)
      refine ⟨⟨hother, fun a => ?_⟩, ?_, ?_⟩
      · exact congrFun (congrArg PkgAuditCpe.field hsame) a
      · exact (congrArg PkgAuditCpe.versionMajor hsame).symm
      · exact (congrArg PkgAuditCpe.versionMinor hsame).symm
    · rintro ⟨⟨-, hfields⟩, hmajor, hminor⟩
      have hfield : (fun a : Field => (setValues cpe)[a.index]?) = cpe.field := funext hfields
      rw [hfield, ← hmajor, ← hminor]

def testProduct : PkgAuditCpe :=
  { versionMajor := 2, versionMinor := 3, part := 97,
    field := fun a => match a with
      | .vendor => some (ascii "test")
      | .product => some (ascii "product")
      | _ => none }

def withoutProduct : PkgAuditCpe :=
  { versionMajor := 2, versionMinor := 3, part := 97,
    field := fun a => match a with
      | .vendor => some (ascii "test")
      | .version => some (ascii "1.0")
      | _ => none }

theorem named_testProduct : Named testProduct where
  part := Or.inl rfl
  field a value ha := by
    cases a <;> first
      | (obtain rfl := Option.some.inj ha; decide)
      | exact absurd ha.symm (Option.some_ne_none _)
  vendor := ⟨_, rfl⟩

theorem roundTrips_testProduct : RoundTrips testProduct ∧ Named testProduct :=
  ⟨((pkgCpeParse_iff named_testProduct).1).mpr ⟨by decide, by unfold SetInFront; decide⟩,
    named_testProduct⟩

/-- The version comes back as the product. -/
theorem not_roundTrips_withoutProduct : Named withoutProduct ∧ ¬ RoundTrips withoutProduct := by
  constructor
  · refine ⟨Or.inl rfl, fun a value ha => ?_, ⟨_, rfl⟩⟩
    cases a <;> first
      | (obtain rfl := Option.some.inj ha; decide)
      | exact absurd ha.symm (Option.some_ne_none _)
  · rintro ⟨cpe', hsome, -, hfields⟩
    have hproduct : ((pkgCpeParse (pkgCpeCreate withoutProduct)).join.bind fun cpe =>
        cpe.field .product) = some (ascii "1.0") := by decide
    rw [hsome] at hproduct
    exact Option.some_ne_none _ (hproduct.symm.trans (hfields .product))

end NextBSD.Libpkg.Cpe
