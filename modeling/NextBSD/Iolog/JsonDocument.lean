import NextBSD.Iolog.JsonScalars

/-!
# The text of a document

The calls of a document are nested as its items are.  The writer puts every item on lines of its
own, and the comma behind an item that another one follows.
-/

namespace NextBSD.Iolog

open TextLines

mutual

def itemCalls : JsonItem → List JsonCall
  | .scalar name v => [.addValue name (.scalar v)]
  | .array name items => .openArray name :: (itemsCalls items ++ [.closeArray])
  | .object name items => .openObject name :: (itemsCalls items ++ [.closeObject])

def itemsCalls : List JsonItem → List JsonCall
  | [] => []
  | item :: items => itemCalls item ++ itemsCalls items

end

def nulFree (s : Bytes) : Bool := s.all (fun c => c ≠ 0)

def scalarWritable : JsonScalar → Bool
  | .string s => nulFree s
  | .number n => isLongLong n
  | .boolean _ => true
  | .null => true

def nameWritable (inArray : Bool) (name : Option Bytes) : Bool :=
  if inArray then name.isNone else name.any nulFree

mutual

def itemWritable (inArray : Bool) : JsonItem → Bool
  | .scalar name v => nameWritable inArray name && scalarWritable v
  | .array name items => nameWritable inArray name && itemsWritable true items
  | .object name items => !inArray && nameWritable inArray name && itemsWritable false items

def itemsWritable (inArray : Bool) : List JsonItem → Bool
  | [] => true
  | item :: items => itemWritable inArray item && itemsWritable inArray items

end

mutual

def itemLevels : JsonItem → Nat
  | .scalar _ _ => 0
  | .array _ items => itemsLevels items + 1
  | .object _ items => itemsLevels items + 1

def itemsLevels : List JsonItem → Nat
  | [] => 0
  | item :: items => max (itemLevels item) (itemsLevels items)

end

def Document (items : List JsonItem) : Prop :=
  itemsWritable false items = true ∧ itemsLevels items ≤ 60

/-! ## The lines -/

def pad (indent : Nat) : Bytes := List.replicate indent 32

mutual

def itemLines (indent : Nat) (comma : Bytes) : JsonItem → List Bytes
  | .scalar name v => [pad indent ++ (label false name ++ (scalarText v ++ comma))]
  | .array name items =>
    (pad indent ++ (label false name ++ [91])) ::
      (itemsLines (indent + 4) items ++ [pad indent ++ 93 :: comma])
  | .object name items =>
    (pad indent ++ (label false name ++ [123])) ::
      (itemsLines (indent + 4) items ++ [pad indent ++ 125 :: comma])

def itemsLines (indent : Nat) : List JsonItem → List Bytes
  | [] => []
  | item :: items =>
    itemLines indent (if items.isEmpty then [] else [44]) item ++ itemsLines indent items

end

def ownLines (lines : List Bytes) : Bytes := lines.flatMap (fun l => 10 :: l)

@[simp] theorem ownLines_nil : ownLines [] = [] := rfl

theorem ownLines_append (lines lines' : List Bytes) :
    ownLines (lines ++ lines') = ownLines lines ++ ownLines lines' := List.flatMap_append

theorem ownLines_cons (l : Bytes) (lines : List Bytes) :
    ownLines (l :: lines) = 10 :: l ++ ownLines lines := List.flatMap_cons

theorem ownLines_comma (indent : Nat) (comma : Bytes) (item : JsonItem) :
    ownLines (itemLines indent comma item) = ownLines (itemLines indent [] item) ++ comma := by
  cases item with
  | scalar name v => simp [itemLines, ownLines]
  | array name items => simp [itemLines, ownLines]
  | object name items => simp [itemLines, ownLines]

def commaText (needComma : Bool) : Bytes := if needComma then [44] else []

theorem next_buf {jsonc : JsonContainer} (h : jsonc.minimal = false) :
    jsonc.next =
      { jsonc with buf := jsonc.buf ++ (commaText jsonc.needComma ++ 10 :: pad jsonc.indentLevel) } := by
  obtain ⟨buf, indentLevel, indentIncrement, needComma, minimal⟩ := jsonc
  obtain rfl : minimal = false := h
  cases needComma <;>
    simp [JsonContainer.next, commaText, JsonContainer.newLine, JsonContainer.append, pad]

def JsonContainer.behind (jsonc : JsonContainer) (text : Bytes) : JsonContainer :=
  { jsonc with buf := jsonc.buf ++ text, needComma := true }

def JsonContainer.inside (jsonc : JsonContainer) (text : Bytes) : JsonContainer :=
  { jsonc with
    buf := jsonc.buf ++ text, indentLevel := jsonc.indentLevel + 4, needComma := false }

theorem addValue_lines {jsonc : JsonContainer} (h : jsonc.minimal = false) (name : Option Bytes)
    (v : JsonScalar) :
    (sudoJsonAddValue jsonc name (.scalar v)).1 =
      jsonc.behind (commaText jsonc.needComma ++
        ownLines [pad jsonc.indentLevel ++ (label false name ++ scalarText v)]) := by
  unfold sudoJsonAddValue sudoJsonAddValueInt JsonContainer.behind
  rw [next_buf h]
  simp [valueText, JsonContainer.append, ownLines, h]

theorem open_lines {jsonc : JsonContainer} (h : jsonc.minimal = false)
    (hincr : jsonc.indentIncrement = 4) (brace : UInt8) (name : Option Bytes) :
    sudoJsonOpen brace jsonc name =
      jsonc.inside (commaText jsonc.needComma ++
        ownLines [pad jsonc.indentLevel ++ (label false name ++ [brace])]) := by
  unfold sudoJsonOpen JsonContainer.inside
  rw [next_buf h]
  simp [JsonContainer.append, ownLines, h, hincr]

theorem close_lines {jsonc : JsonContainer} (h : jsonc.minimal = false)
    (hincr : jsonc.indentIncrement = 4) (brace : UInt8) :
    sudoJsonClose brace jsonc =
      { jsonc.behind (ownLines [pad (jsonc.indentLevel - 4) ++ [brace]]) with
        indentLevel := jsonc.indentLevel - 4 } := by
  unfold sudoJsonClose JsonContainer.behind JsonContainer.newLine
  simp [JsonContainer.append, ownLines, pad, h, hincr]

mutual

theorem run_itemCalls : ∀ (item : JsonItem) (jsonc : JsonContainer), jsonc.minimal = false →
    jsonc.indentIncrement = 4 →
    (itemCalls item).foldl JsonCall.run jsonc =
      jsonc.behind (commaText jsonc.needComma ++
        ownLines (itemLines jsonc.indentLevel [] item))
  | .scalar name v, jsonc, h, _ => by
    show (sudoJsonAddValue jsonc name (.scalar v)).1 = _
    rw [addValue_lines h, itemLines, List.append_nil]
  | .array name items, jsonc, h, hincr => by
    show (itemsCalls items ++ [JsonCall.closeArray]).foldl JsonCall.run (sudoJsonOpen 91 jsonc name) = _
    rw [List.foldl_append, open_lines h hincr, run_itemsCalls items (jsonc.inside _) h hincr]
    show sudoJsonClose 93 _ = _
    rw [close_lines (by exact h) (by exact hincr)]
    simp [JsonContainer.behind, JsonContainer.inside, itemLines, ownLines_append, ownLines_cons,
      commaText]
  | .object name items, jsonc, h, hincr => by
    show (itemsCalls items ++ [JsonCall.closeObject]).foldl JsonCall.run (sudoJsonOpen 123 jsonc name) = _
    rw [List.foldl_append, open_lines h hincr, run_itemsCalls items (jsonc.inside _) h hincr]
    show sudoJsonClose 125 _ = _
    rw [close_lines (by exact h) (by exact hincr)]
    simp [JsonContainer.behind, JsonContainer.inside, itemLines, ownLines_append, ownLines_cons,
      commaText]

theorem run_itemsCalls : ∀ (items : List JsonItem) (jsonc : JsonContainer),
    jsonc.minimal = false → jsonc.indentIncrement = 4 →
    (itemsCalls items).foldl JsonCall.run jsonc =
      { jsonc.behind (commaText (jsonc.needComma && !items.isEmpty) ++
          ownLines (itemsLines jsonc.indentLevel items)) with
        needComma := jsonc.needComma || !items.isEmpty }
  | [], jsonc, _, _ => by
    simp [itemsCalls, itemsLines, ownLines, JsonContainer.behind, commaText]
  | item :: items, jsonc, h, hincr => by
    rw [itemsCalls, List.foldl_append, run_itemCalls item jsonc h hincr,
      run_itemsCalls items (jsonc.behind _) h hincr, itemsLines, ownLines_append,
      ownLines_comma jsonc.indentLevel (if items.isEmpty then [] else [44])]
    cases items with
    | nil => simp [JsonContainer.behind, commaText, itemsLines, ownLines]
    | cons item' items => simp [JsonContainer.behind, commaText]

end

theorem newline_not_mem_escape (s : Bytes) : 10 ∉ escape s := by
  have hall : ∀ c : UInt8, 10 ∉ escapeByte c := by
    exact forall_byte (by decide +kernel)
  intro hmem
  obtain ⟨c, -, hc⟩ := List.mem_flatMap.mp hmem
  exact hall c hc

theorem newline_not_mem_quoted (s : Bytes) : 10 ∉ quoted s := by
  unfold quoted
  simpa using newline_not_mem_escape s

theorem newline_not_mem_label (name : Option Bytes) : 10 ∉ label false name := by
  cases name with
  | none => exact List.not_mem_nil
  | some name => simpa [label] using newline_not_mem_quoted name

theorem newline_not_mem_scalarText (v : JsonScalar) : 10 ∉ scalarText v := by
  cases v with
  | string s => exact newline_not_mem_quoted s
  | number n => exact fun hmem => absurd ((printSigned_text n).2 10 hmem) (by decide)
  | boolean b => cases b <;> decide
  | null => decide

theorem newline_not_mem_pad (indent : Nat) : 10 ∉ pad indent :=
  fun hmem => absurd (List.eq_of_mem_replicate hmem) (by decide)

mutual

theorem newline_not_mem_itemLines : ∀ (item : JsonItem) (indent : Nat) (comma : Bytes),
    10 ∉ comma → ∀ l ∈ itemLines indent comma item, 10 ∉ l
  | .scalar name v, indent, comma, h => by
    simpa [itemLines] using ⟨newline_not_mem_pad indent, newline_not_mem_label name,
      newline_not_mem_scalarText v, h⟩
  | .array name items, indent, comma, h => by
    have hitems := newline_not_mem_itemsLines items (indent + 4)
    simpa [itemLines, or_imp, forall_and] using ⟨⟨newline_not_mem_pad indent,
      newline_not_mem_label name⟩, hitems, newline_not_mem_pad indent, h⟩
  | .object name items, indent, comma, h => by
    have hitems := newline_not_mem_itemsLines items (indent + 4)
    simpa [itemLines, or_imp, forall_and] using ⟨⟨newline_not_mem_pad indent,
      newline_not_mem_label name⟩, hitems, newline_not_mem_pad indent, h⟩

theorem newline_not_mem_itemsLines : ∀ (items : List JsonItem) (indent : Nat),
    ∀ l ∈ itemsLines indent items, 10 ∉ l
  | [], _ => by simp [itemsLines]
  | item :: items, indent => by
    have hcomma : (10 : UInt8) ∉ (if items.isEmpty then [] else [44] : Bytes) := by
      split_ifs <;> decide
    intro l hl
    rw [itemsLines] at hl
    cases List.mem_append.mp hl with
    | inl h => exact newline_not_mem_itemLines item indent _ hcomma l h
    | inr h => exact newline_not_mem_itemsLines items indent l h

end

theorem joinLines_ownLines (l : Bytes) (lines : List Bytes) :
    joinLines 10 (l :: lines) = l ++ ownLines lines ++ [10] := by
  induction lines generalizing l with
  | nil => simp [joinLines, ownLines]
  | cons l' lines ih => rw [TextLines.joinLines_cons, ih l', ownLines_cons]; simp

theorem splitLines_writeInfoFileJson (items : List JsonItem) :
    splitLines 10 (writeInfoFileJson (itemsCalls items)) =
      [123] :: (itemsLines 4 items ++ [[125]]) := by
  have hfile : writeInfoFileJson (itemsCalls items) =
      joinLines 10 ([123] :: (itemsLines 4 items ++ [[125]])) := by
    unfold writeInfoFileJson
    rw [run_itemsCalls items _ rfl rfl, joinLines_ownLines, ownLines_append]
    simp [JsonContainer.behind, sudoJsonInit, commaText, ownLines]
  rw [hfile]
  refine splitLines_joinLines (fun l hl => ?_)
  simp only [List.mem_cons, List.mem_append, List.not_mem_nil, or_false] at hl
  rcases hl with rfl | hl | rfl
  · decide
  · exact newline_not_mem_itemsLines items 4 l hl
  · decide

end NextBSD.Iolog
