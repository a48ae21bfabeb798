import NextBSD.Iolog.JsonStray

/-!
# The round trip of a document

The reader gives back the items that were written, unless a name or a string ends in a backslash.
-/

namespace NextBSD.Iolog

def namePlain (name : Option Bytes) : Bool := name.all endsPlain

def scalarPlain : JsonScalar → Bool
  | .string s => endsPlain s
  | .number _ => true
  | .boolean _ => true
  | .null => true

mutual

def itemPlain : JsonItem → Bool
  | .scalar name v => namePlain name && scalarPlain v
  | .array name items => namePlain name && itemsPlain items
  | .object name items => namePlain name && itemsPlain items

def itemsPlain : List JsonItem → Bool
  | [] => true
  | item :: items => itemPlain item && itemsPlain items

end

/-! ## The parts of a line -/

theorem words_comma (st : ReadState) (comma : Bool) :
    words st (commaText comma) = some { st with sawComma := st.sawComma || comma } := by
  cases comma with
  | false =>
    rw [Bool.or_false]
    exact words_end rfl
  | true =>
    rw [Bool.or_true]
    exact words_end rfl

def Holds (inArray : Bool) (st : ReadState) : Prop :=
  if inArray then ∃ name, st.frame.parent = .array name
  else ∃ name, st.frame.parent = .object name

theorem Holds.ne_root {inArray : Bool} {st : ReadState} (h : Holds inArray st) :
    st.frame.parent ≠ .root := by
  unfold Holds at h
  intro hroot
  split at h
  · obtain ⟨name, hname⟩ := h
    exact absurd (hroot.symm.trans hname) (by nofun)
  · obtain ⟨name, hname⟩ := h
    exact absurd (hroot.symm.trans hname) (by nofun)

theorem Holds.isArray {inArray : Bool} {st : ReadState} (h : Holds inArray st) :
    st.frame.isArray = inArray := by
  unfold Holds at h
  unfold JsonFrame.isArray
  cases inArray with
  | true => obtain ⟨name, hname⟩ := h; rw [hname]
  | false => obtain ⟨name, hname⟩ := h; rw [hname]

theorem expectValue_named {inArray : Bool} {st : ReadState} (h : Holds inArray st)
    {name : Option Bytes} (hname : nameWritable inArray name = true) :
    ({ st with name := name } : ReadState).expectValue = true := by
  unfold ReadState.expectValue
  unfold nameWritable at hname
  cases inArray with
  | true =>
    show (name.isSome || st.frame.isArray) = true
    rw [h.isArray, Bool.or_true]
  | false =>
    cases name with
    | none => exact absurd hname (by decide)
    | some s => rfl

theorem getLast?_quoted (s : Bytes) : (quoted s).getLast? = some 34 := by
  unfold quoted
  exact List.getLast?_concat

theorem words_name {name : Bytes} {st : ReadState} (hst : Holds false st) (hnone : st.name = none)
    (hplain : endsPlain name = true) (cp : Bytes) :
    words st (label false (some name) ++ cp) = words { st with name := some name } cp := by
  have hvalue : st.expectValue = false := by
    unfold ReadState.expectValue
    rw [hnone, hst.isArray]
    rfl
  have hparse : jsonParseString (quoted name ++ 58 :: 32 :: cp) = some (name, 58 :: 32 :: cp) :=
    jsonParseString_quoted hplain _
  have hread : readString st (quoted name ++ 58 :: 32 :: cp) =
      some ({ st with name := some name }, 32 :: cp) := by
    unfold readString
    rw [if_neg hst.ne_root, hvalue, hparse]
    rfl
  have htext : label false (some name) ++ cp = quoted name ++ 58 :: 32 :: cp := by
    simp [label]
  rw [htext]
  show words st (34 :: (escape name ++ [34] ++ 58 :: 32 :: cp)) = _
  rw [words_cons rfl (by decide)]
  show (readString st (quoted name ++ 58 :: 32 :: cp)).bind _ = _
  rw [hread]
  exact @words_skip _ [32] (by simp [isspace]) cp

theorem words_name_backslash {name : Bytes} {st : ReadState} (hst : Holds false st)
    (hnone : st.name = none) (hplain : endsPlain name = false) {value comma : Bytes}
    (hcomma : 34 ∉ comma)
    (hvalue : 34 ∉ value ∨ ∃ s, value = quoted s) :
    words st (label false (some name) ++ (value ++ comma)) = none := by
  have hexpect : st.expectValue = false := by
    unfold ReadState.expectValue
    rw [hnone, hst.isArray]
    rfl
  have hend := stringEnd_escape_backslash hplain (58 :: 32 :: (value ++ comma))
  have hread : (readString st (quoted name ++ 58 :: 32 :: (value ++ comma))).bind
      (fun p => words p.1 p.2) = none := by
    unfold readString jsonParseString
    rw [if_neg hst.ne_root, hexpect]
    show (readName st ((stringEnd ((escape name ++ [34]) ++ 58 :: 32 :: (value ++ comma))).map
      (fun p => (flatten p.1, p.2.dropWhile isspace)))).bind (fun p => words p.1 p.2) = none
    rw [List.append_assoc, List.singleton_append, hend]
    cases hvalue with
    | inl hvalue =>
      have hnone : stringEnd (58 :: 32 :: (value ++ comma)) = none :=
        stringEnd_eq_none (by simp [hvalue, hcomma])
      rw [hnone]
      rfl
    | inr hvalue =>
      obtain ⟨s, rfl⟩ := hvalue
      have hsplit : stringEnd (58 :: 32 :: (quoted s ++ comma)) =
          some ([58, 32], escape s ++ 34 :: comma) := by
        show stringEnd (58 :: 32 :: 34 :: (escape s ++ [34] ++ comma)) = _
        rw [List.append_assoc]
        rfl
      rw [hsplit]
      show (readName st (some (flatten (escape name ++ [34] ++ [58, 32]),
        (escape s ++ 34 :: comma).dropWhile isspace))).bind (fun p => words p.1 p.2) = none
      have hstray := (stray_escape s hcomma).dropWhile
      unfold readName
      split
      · next name' cp heq =>
        rw [(Prod.mk.inj (Option.some.inj heq)).2] at hstray
        exact words_stray (Nat.le_refl _) (Stray.tail (by decide) (by decide) hstray) _
      · rfl
  have htext : label false (some name) ++ (value ++ comma) =
      34 :: (escape name ++ [34] ++ 58 :: 32 :: (value ++ comma)) := by
    simp [label, quoted]
  rw [htext, words_cons rfl (by decide)]
  exact hread

theorem words_label {inArray : Bool} {name : Option Bytes} {st : ReadState}
    (hst : Holds inArray st) (hnone : st.name = none) (hname : nameWritable inArray name = true)
    {value comma : Bytes} (hcomma : 34 ∉ comma) (hvalue : 34 ∉ value ∨ ∃ s, value = quoted s)
    (indent : Nat) :
    words st (pad indent ++ (label false name ++ (value ++ comma))) =
      if namePlain name then words { st with name := name } (value ++ comma) else none := by
  rw [words_skip isspace_pad]
  cases inArray with
  | true =>
    unfold nameWritable at hname
    obtain rfl : name = none := Option.isNone_iff_eq_none.mp hname
    show words st (value ++ comma) = words { st with name := none } (value ++ comma)
    rw [← hnone]
  | false =>
    cases name with
    | none => exact absurd hname (by decide)
    | some s =>
      show _ = if endsPlain s = true then _ else none
      cases hplain : endsPlain s with
      | true => exact words_name hst hnone hplain _
      | false => exact words_name_backslash hst hnone hplain hcomma hvalue

theorem quote_not_mem_comma (comma : Bool) : 34 ∉ commaText comma := by
  cases comma <;> decide

theorem readWord_comma {word : Bytes} {v : JsonScalar} {st : ReadState}
    (hvalue : st.expectValue = true) (hsep : st.separated = true) (comma : Bool) :
    readWord word v st (word ++ commaText comma) = some (st.insert v, commaText comma) := by
  have hstart : word.isPrefixOf (word ++ commaText comma) = true :=
    List.isPrefixOf_iff_prefix.mpr (List.prefix_append _ _)
  have hnext : (commaText comma).head?.any (fun c => c ≠ 44 && !isspace c) = false := by
    cases comma <;> rfl
  unfold readWord
  rw [hstart, hvalue, hsep]
  dsimp only
  rw [List.drop_left, hnext]
  rfl

theorem sign_first : ∀ c : UInt8, c = 45 ∨ isdigit c = true → (isspace c = false ∧ c ≠ 44) ∧
    c ≠ 123 ∧ c ≠ 125 ∧ c ≠ 91 ∧ c ≠ 93 ∧ c ≠ 34 ∧ c ≠ 116 ∧ c ≠ 102 ∧ c ≠ 110 := by
  exact forall_byte (by decide +kernel)

theorem readNumber_comma {n : Int} (hn : isLongLong n = true) {st : ReadState}
    (hvalue : st.expectValue = true) (hsep : st.separated = true) (comma : Bool) :
    readNumber st (printSigned n ++ commaText comma) =
      some (st.insert (.number n), commaText comma) := by
  have hall : ∀ c ∈ printSigned n, (!endsNumber c) = true := fun c hc => by
    rw [(printSigned_text n).2 c hc]
    rfl
  have htake : (commaText comma).takeWhile (fun c => !endsNumber c) = [] := by
    cases comma <;> rfl
  have hdrop : (commaText comma).dropWhile (fun c => !endsNumber c) = commaText comma := by
    cases comma <;> rfl
  unfold readNumber
  rw [hvalue, hsep, List.takeWhile_append_of_pos hall, List.dropWhile_append_of_pos hall, htake,
    hdrop, List.append_nil, sudoStrtonum_printSigned hn]
  rfl

theorem readString_comma {s : Bytes} {st : ReadState} (hroot : st.frame.parent ≠ .root)
    (hvalue : st.expectValue = true) (hsep : st.separated = true) (comma : Bool) :
    readString st (quoted s ++ commaText comma) =
      if endsPlain s then some (st.insert (.string s), commaText comma) else none := by
  unfold readString
  rw [if_neg hroot, hvalue, hsep]
  cases hplain : endsPlain s with
  | true =>
    rw [jsonParseString_quoted hplain]
    cases comma <;> rfl
  | false =>
    have hend := stringEnd_escape_backslash hplain (commaText comma)
    rw [stringEnd_eq_none (quote_not_mem_comma comma)] at hend
    show ((stringEnd ((escape s ++ [34]) ++ commaText comma)).map _).map _ = none
    rw [List.append_assoc, List.singleton_append, hend]
    rfl

theorem words_scalar {v : JsonScalar} (hv : scalarWritable v = true) {st : ReadState}
    (hroot : st.frame.parent ≠ .root) (hvalue : st.expectValue = true)
    (hsep : st.separated = true) (comma : Bool) :
    words st (scalarText v ++ commaText comma) =
      if scalarPlain v then some { st.insert v with sawComma := comma } else none := by
  have hinsert : words (st.insert v) (commaText comma) =
      some { st.insert v with sawComma := comma } := words_comma _ _
  cases v with
  | string s =>
    show words st (34 :: ((escape s ++ [34]) ++ commaText comma)) = _
    rw [words_cons rfl (by decide)]
    show (readString st (quoted s ++ commaText comma)).bind _ = if endsPlain s = true then _ else _
    rw [readString_comma hroot hvalue hsep]
    split_ifs
    · exact hinsert
    · rfl
  | number n =>
    have hread := readNumber_comma hv hvalue hsep comma
    obtain ⟨⟨c, cp, htext, hc⟩, -⟩ := printSigned_text n
    obtain ⟨⟨hspace, hcomma⟩, h1, h2, h3, h4, h5, h6, h7, h8⟩ := sign_first c hc
    show words st (printSigned n ++ commaText comma) = _
    rw [htext] at hread ⊢
    rw [List.cons_append] at hread ⊢
    rw [words_cons hspace hcomma, readToken, if_neg h1, if_neg h2, if_neg h3, if_neg h4, if_neg h5,
      if_neg h6, if_neg h7, if_neg h8, if_pos (Or.inr hc), hread]
    exact hinsert
  | boolean b =>
    cases b with
    | true =>
      show words st (116 :: ([114, 117, 101] ++ commaText comma)) = _
      rw [words_cons rfl (by decide)]
      show (readWord (ascii "true") (.boolean true) st (ascii "true" ++ commaText comma)).bind _ = _
      rw [readWord_comma hvalue hsep]
      exact hinsert
    | false =>
      show words st (102 :: ([97, 108, 115, 101] ++ commaText comma)) = _
      rw [words_cons rfl (by decide)]
      show (readWord (ascii "false") (.boolean false) st (ascii "false" ++ commaText comma)).bind _
        = _
      rw [readWord_comma hvalue hsep]
      exact hinsert
  | null =>
    show words st (110 :: ([117, 108, 108] ++ commaText comma)) = _
    rw [words_cons rfl (by decide)]
    show (readWord (ascii "null") .null st (ascii "null" ++ commaText comma)).bind _ = _
    rw [readWord_comma hvalue hsep]
    exact hinsert

theorem words_single {st : ReadState} {c : UInt8} (hspace : isspace c = false) (hcomma : c ≠ 44)
    {o : Option ReadState} {comma : Bool}
    (h : readToken st (c :: commaText comma) = o.map (·, commaText comma)) :
    words st (c :: commaText comma) =
      o.map (fun st' => { st' with sawComma := st'.sawComma || comma }) := by
  rw [words_cons hspace hcomma, h]
  cases o with
  | none => rfl
  | some st' => exact words_comma st' comma

/-! ## The lines of an item -/

def ReadState.add (st : ReadState) (items : List JsonItem) (comma : Bool) : ReadState :=
  { st with
    frame := { st.frame with items := st.frame.items ++ items }, sawComma := comma }

theorem add_nil (st : ReadState) : st.add [] st.sawComma = st := by
  unfold ReadState.add
  rw [List.append_nil]

theorem isspace_scalarText (v : JsonScalar) :
    ∃ c, (scalarText v).getLast? = some c ∧ isspace c = false := by
  have hnumber : ∀ c : UInt8, endsNumber c = false → isspace c = false := by
    exact forall_byte (by decide +kernel)
  cases v with
  | string s => exact ⟨34, getLast?_quoted s, rfl⟩
  | number n =>
    obtain ⟨⟨c, cp, htext, -⟩, hall⟩ := printSigned_text n
    have hne : printSigned n ≠ [] := by rw [htext]; exact List.cons_ne_nil _ _
    exact ⟨_, List.getLast?_eq_some_getLast hne, hnumber _ (hall _ (List.getLast_mem hne))⟩
  | boolean b => cases b <;> exact ⟨101, rfl, rfl⟩
  | null => exact ⟨108, rfl, rfl⟩

theorem readLine_value {value : Bytes} {c : UInt8} (h : value.getLast? = some c)
    (hc : isspace c = false) (l : Bytes) (comma : Bool) (st : ReadState) :
    readLine st (l ++ (value ++ commaText comma)) = words st (l ++ (value ++ commaText comma)) := by
  cases comma with
  | false =>
    refine readLine_eq (c := c) ?_ hc st
    show (l ++ (value ++ [])).getLast? = some c
    rw [List.append_nil, List.getLast?_append, h]
    rfl
  | true =>
    refine readLine_eq (c := 44) ?_ rfl st
    show (l ++ (value ++ [44])).getLast? = some 44
    rw [← List.append_assoc, List.getLast?_concat]

theorem readLine_scalar {inArray : Bool} {name : Option Bytes} {v : JsonScalar} {st : ReadState}
    (hname : nameWritable inArray name = true) (hv : scalarWritable v = true)
    (hst : Holds inArray st) (hnone : st.name = none) (hsep : st.separated = true) (indent : Nat)
    (comma : Bool) :
    readLine st (pad indent ++ (label false name ++ (scalarText v ++ commaText comma))) =
      if namePlain name && scalarPlain v then some (st.add [.scalar name v] comma) else none := by
  obtain ⟨c, hlast, hc⟩ := isspace_scalarText v
  have hvalue : 34 ∉ scalarText v ∨ ∃ s, scalarText v = quoted s := by
    cases v with
    | string s => exact Or.inr ⟨s, rfl⟩
    | number n =>
      exact Or.inl (fun hmem => (sudoStrtonum_plain (sudoStrtonum_printSigned hv) 34 hmem).1 rfl)
    | boolean b => cases b <;> exact Or.inl (by decide)
    | null => exact Or.inl (by decide)
  have hline := readLine_value hlast hc (pad indent ++ label false name) comma st
  rw [List.append_assoc] at hline
  rw [hline, words_label hst hnone hname (quote_not_mem_comma comma) hvalue]
  cases namePlain name with
  | false => rfl
  | true =>
    rw [if_pos rfl, words_scalar hv (by exact hst.ne_root) (expectValue_named hst hname) hsep]
    rw [Bool.true_and]
    congr 2
    unfold ReadState.insert ReadState.add
    rw [hnone]

def ReadState.inside (st : ReadState) (parent : FrameParent) : ReadState :=
  { name := none, sawComma := false, frame := { parent, items := [] }, stack := st.frame :: st.stack }

theorem readLine_open {inArray : Bool} {name : Option Bytes} {st : ReadState}
    (hname : nameWritable inArray name = true) (hst : Holds inArray st) (hnone : st.name = none)
    (indent : Nat) {brace : UInt8} {parent : FrameParent} (hspace : isspace brace = false)
    (hquote : brace ≠ 34) (hcomma : brace ≠ 44)
    (hopen : readToken { st with name := name } [brace] = some (st.inside parent, [])) :
    readLine st (pad indent ++ (label false name ++ [brace])) =
      if namePlain name then some (st.inside parent) else none := by
  have hlast : ([brace] : Bytes).getLast? = some brace := rfl
  have hline := readLine_value hlast hspace (pad indent ++ label false name) false st
  rw [List.append_assoc] at hline
  have hlabel := words_label hst hnone hname (quote_not_mem_comma false)
    (Or.inl (by simpa using hquote.symm) : 34 ∉ [brace] ∨ _) indent
  have hbrace : words { st with name := name } ([brace] ++ commaText false) =
      some (st.inside parent) := by
    show words { st with name := name } (brace :: commaText false) = _
    rw [words_single hspace hcomma (o := some (st.inside parent)) hopen]
    rfl
  show readLine st (pad indent ++ (label false name ++ ([brace] ++ commaText false))) = _
  rw [hline, hlabel, hbrace]

theorem readLine_close {st st' : ReadState} {brace : UInt8} (hspace : isspace brace = false)
    (hcomma : brace ≠ 44) (indent : Nat) (comma : Bool)
    (hclose : readToken st (brace :: commaText comma) = some (st', commaText comma))
    (hsaw : st'.sawComma = false) :
    readLine st (pad indent ++ brace :: commaText comma) =
      some { st' with sawComma := comma } := by
  have hlast : ([brace] : Bytes).getLast? = some brace := rfl
  have hline := readLine_value hlast hspace (pad indent) comma st
  show readLine st (pad indent ++ ([brace] ++ commaText comma)) = _
  rw [hline, words_skip isspace_pad]
  show words st (brace :: commaText comma) = _
  rw [words_single hspace hcomma (o := some st') hclose]
  show some { st' with sawComma := st'.sawComma || comma } = _
  rw [hsaw, Bool.false_or]

theorem openArray_inside {inArray : Bool} {name : Option Bytes} {st : ReadState}
    (hst : Holds inArray st) (hsep : st.separated = true) (hdepth : st.stack.length < 64) :
    readToken { st with name := name } [91] = some (st.inside (.array name), []) := by
  show (ReadState.openArray { st with name := name }).map _ = _
  unfold ReadState.openArray ReadState.push
  rw [if_neg hst.ne_root, show ReadState.separated { st with name := name } = true from hsep]
  dsimp only
  rw [if_pos hdepth]
  rfl

theorem openObject_inside {name : Option Bytes} {st : ReadState}
    (hname : nameWritable false name = true) (hsep : st.separated = true)
    (hdepth : st.stack.length < 64) :
    readToken { st with name := name } [123] = some (st.inside (.object name), []) := by
  have hnamed : name ≠ none := by
    rintro rfl
    exact absurd hname (by decide)
  show (ReadState.openObject { st with name := name }).map _ = _
  unfold ReadState.openObject ReadState.push
  rw [if_neg (fun h => hnamed h.1), show ReadState.separated { st with name := name } = true from hsep]
  dsimp only
  rw [if_pos hdepth]
  rfl

mutual

theorem read_item : ∀ (item : JsonItem) (indent : Nat) (comma inArray : Bool) (st : ReadState),
    itemWritable inArray item = true → Holds inArray st → st.name = none → st.separated = true →
    st.stack.length + itemLevels item ≤ 64 →
    (itemLines indent (commaText comma) item).foldlM readLine st =
      if itemPlain item then some (st.add [item] comma) else none
  | .scalar name v, indent, comma, inArray, st, hw, hst, hnone, hsep, _ => by
    rw [itemWritable, Bool.and_eq_true] at hw
    rw [itemLines, List.foldlM_cons, readLine_scalar hw.1 hw.2 hst hnone hsep, itemPlain]
    split_ifs <;> rfl
  | .array name items, indent, comma, inArray, st, hw, hst, hnone, hsep, hdepth => by
    rw [itemWritable, Bool.and_eq_true] at hw
    rw [itemLevels] at hdepth
    have hinside : Holds true (st.inside (.array name)) := ⟨name, rfl⟩
    have hitems := read_items items (indent + 4) true (st.inside (.array name)) hw.2 hinside rfl
      (fun _ => rfl) (fun _ => rfl) (by show st.stack.length + 1 + _ ≤ 64; omega)
    have hclose : readToken ((st.inside (.array name)).add items false) (93 :: commaText comma) =
        some ({ st with name := none, sawComma := false,
                        frame := { st.frame with items := st.frame.items ++ [.array name items] } },
          commaText comma) := rfl
    rw [itemLines, List.foldlM_cons,
      readLine_open hw.1 hst hnone indent rfl (by decide) (by decide)
        (openArray_inside hst hsep (by omega)), itemPlain]
    cases namePlain name with
    | false => rfl
    | true =>
      show (itemsLines (indent + 4) items ++ _).foldlM readLine (st.inside (.array name)) = _
      rw [List.foldlM_append, hitems]
      cases itemsPlain items with
      | false => rfl
      | true =>
        show readLine ((st.inside (.array name)).add items false) _ >>= pure = _
        rw [readLine_close rfl (by decide) indent comma hclose rfl]
        unfold ReadState.add
        rw [hnone]
        rfl
  | .object name items, indent, comma, inArray, st, hw, hst, hnone, hsep, hdepth => by
    rw [itemWritable, Bool.and_eq_true, Bool.and_eq_true, Bool.not_eq_true'] at hw
    obtain ⟨⟨rfl, hname⟩, hitemsw⟩ := hw
    rw [itemLevels] at hdepth
    have hinside : Holds false (st.inside (.object name)) := ⟨name, rfl⟩
    have hitems := read_items items (indent + 4) false (st.inside (.object name)) hitemsw hinside
      rfl (fun _ => rfl) (fun _ => rfl) (by show st.stack.length + 1 + _ ≤ 64; omega)
    have hclose : readToken ((st.inside (.object name)).add items false) (125 :: commaText comma) =
        some ({ st with name := none, sawComma := false,
                        frame := { st.frame with items := st.frame.items ++ [.object name items] } },
          commaText comma) := rfl
    rw [itemLines, List.foldlM_cons,
      readLine_open hname hst hnone indent rfl (by decide) (by decide)
        (openObject_inside hname hsep (by omega)), itemPlain]
    cases namePlain name with
    | false => rfl
    | true =>
      show (itemsLines (indent + 4) items ++ _).foldlM readLine (st.inside (.object name)) = _
      rw [List.foldlM_append, hitems]
      cases itemsPlain items with
      | false => rfl
      | true =>
        show readLine ((st.inside (.object name)).add items false) _ >>= pure = _
        rw [readLine_close rfl (by decide) indent comma hclose rfl]
        unfold ReadState.add
        rw [hnone]
        rfl

theorem read_items : ∀ (items : List JsonItem) (indent : Nat) (inArray : Bool) (st : ReadState),
    itemsWritable inArray items = true → Holds inArray st → st.name = none →
    (items = [] → st.sawComma = false) → (items ≠ [] → st.separated = true) →
    st.stack.length + itemsLevels items ≤ 64 →
    (itemsLines indent items).foldlM readLine st =
      if itemsPlain items then some (st.add items false) else none
  | [], indent, inArray, st, _, _, _, hcomma, _, _ => by
    rw [itemsLines, itemsPlain, if_pos rfl, ← hcomma rfl, add_nil]
    rfl
  | item :: items, indent, inArray, st, hw, hst, hnone, _, hsep, hdepth => by
    rw [itemsWritable, Bool.and_eq_true] at hw
    rw [itemsLevels] at hdepth
    have hcomma : (if items.isEmpty then [] else [44] : Bytes) = commaText (!items.isEmpty) := by
      cases items <;> rfl
    have hitem := read_item item indent (!items.isEmpty) inArray st hw.1 hst hnone
      (hsep (List.cons_ne_nil _ _)) (by omega)
    have hitems := read_items items indent inArray (st.add [item] (!items.isEmpty)) hw.2 hst hnone
      (by rintro rfl; rfl)
      (by
        intro hne
        cases items with
        | nil => exact absurd rfl hne
        | cons => rfl)
      (by show st.stack.length + _ ≤ 64; omega)
    rw [itemsLines, hcomma, List.foldlM_append, hitem, itemsPlain]
    cases itemPlain item with
    | false => rfl
    | true =>
      show (itemsLines indent items).foldlM readLine (st.add [item] (!items.isEmpty)) = _
      rw [hitems, Bool.true_and]
      congr 2
      unfold ReadState.add
      rw [List.append_assoc]
      rfl

end

theorem eventlogJsonRead_writeInfoFileJson {items : List JsonItem} (h : Document items) :
    eventlogJsonRead (writeInfoFileJson (itemsCalls items)) =
      if itemsPlain items then some [.object none items] else none := by
  have hopen : readLine ReadState.start [123] = some (ReadState.start.inside (.object none)) := rfl
  have hitems := read_items items 4 false (ReadState.start.inside (.object none)) h.1 ⟨none, rfl⟩
    rfl (fun _ => rfl) (fun _ => rfl) (by
      have hlevels := h.2
      show 1 + _ ≤ 64
      omega)
  have hclose : readLine ((ReadState.start.inside (.object none)).add items false) [125] =
      some { ReadState.start with
        frame := { ReadState.start.frame with items := [.object none items] } } := rfl
  unfold eventlogJsonRead
  rw [splitLines_writeInfoFileJson, List.foldlM_cons, hopen, Option.bind_eq_bind, Option.bind_some,
    List.foldlM_append, hitems]
  cases itemsPlain items with
  | false => rfl
  | true =>
    rw [if_pos rfl, Option.bind_eq_bind, Option.bind_some, List.foldlM_cons, hclose]
    rfl

/-- The reader gives the items back: no name and no string of them ends in a backslash. -/
theorem eventlogJsonRead_roundTrip_iff {items : List JsonItem} (h : Document items) :
    eventlogJsonRead (writeInfoFileJson (itemsCalls items)) = some [.object none items] ↔
      itemsPlain items = true := by
  rw [eventlogJsonRead_writeInfoFileJson h]
  cases itemsPlain items with
  | false => exact ⟨fun h => absurd h (Option.some_ne_none _).symm, fun h => absurd h (by decide)⟩
  | true => exact ⟨fun _ => rfl, fun _ => rfl⟩

theorem eventlogJsonRead_roundTrip_iff_argv :
    eventlogJsonRead (writeInfoFileJson (itemsCalls
        [.array (some (ascii "runargv")) [.scalar none (.string (ascii "ls\n")),
          .scalar none (.number (-2 ^ 63))]])) =
      some [.object none [.array (some (ascii "runargv")) [.scalar none (.string (ascii "ls\n")),
        .scalar none (.number (-2 ^ 63))]]] :=
  (eventlogJsonRead_roundTrip_iff ⟨by decide, by decide⟩).mpr (by decide)

/-- The working directory of the session ends in a backslash. -/
theorem not_eventlogJsonRead_roundTrip_backslash :
    ¬ ∀ items : List JsonItem, Document items →
      eventlogJsonRead (writeInfoFileJson (itemsCalls items)) = some [.object none items] := by
  intro h
  have hdoc : Document [.scalar (some (ascii "submitcwd")) (.string (ascii "/tmp\\"))] :=
    ⟨by decide, by decide⟩
  have hread := h _ hdoc
  rw [eventlogJsonRead_writeInfoFileJson hdoc] at hread
  exact absurd hread (Option.some_ne_none _).symm

end NextBSD.Iolog
