import MarkupScene.Markup.Attribute

/-!
# Events

A document is cut at its markup. Tags that open or close an element are events; text, comments,
unparsed sections, instructions and the document type leave none. Cutting stops at the first
markup that does not come to its end.
-/
namespace MarkupScene.Markup

open Text

inductive Event where
  | opening (content : List Char) (selfClosing : Bool)
  | closing (name : List Char)
deriving DecidableEq, Repr

/-- Why a piece of markup is refused. -/
inductive MarkupFault where
  | unknown
  | instruction
  | comment
  | docType
  | docTypeName
  | unparsed
  | tag
deriving DecidableEq, Repr

def MarkupFault.message : MarkupFault → String
  | unknown => "syntax error: unknown or missed symbol in markup"
  | instruction =>
    "syntax error: processing instruction or xml declaration not closed: \x60?>\x60 not found before end of input"
  | comment => "syntax error: comment not closed: \x60-->\x60 not found before end of input"
  | docType => "syntax error: DOCTYPE not closed: \x60>\x60 not found before end of input"
  | docTypeName =>
    "ill-formed document: \x60<!DOCTYPE>\x60 declaration does not contain a name of a document type"
  | unparsed => "syntax error: CDATA not closed: \x60]]>\x60 not found before end of input"
  | tag => "syntax error: tag not closed: \x60>\x60 not found before end of input"

/-- The text after the first occurrence of a mark. -/
def after? (mark : List Char) : List Char → Option (List Char)
  | [] => if mark.isEmpty then some [] else none
  | c :: rest =>
    match dropStart? mark (c :: rest) with
    | some tail => some tail
    | none => after? mark rest

theorem length_after? {mark s tail : List Char} (h : after? mark s = some tail) :
    tail.length ≤ s.length := by
  induction s with
  | nil =>
    simp only [after?] at h
    split at h <;> simp_all
  | cons c rest ih =>
    simp only [after?] at h
    split at h
    · next t ht =>
      cases h
      have := congrArg List.length (dropStart?_eq_some_iff.1 ht)
      simp only [List.length_append] at this
      omega
    · have := ih h
      simp only [List.length_cons]
      omega

/-- The content of a tag up to the first closing bracket outside quotes, and the text after it. -/
def tagContent (quote : Option Char) : List Char → Option (List Char × List Char)
  | [] => none
  | c :: rest =>
    if c = '>' ∧ quote = none then some ([], rest)
    else
      let quote' :=
        if quote = none ∧ (c = '"' ∨ c = '\'') then some c
        else if quote = some c then none
        else quote
      (tagContent quote' rest).map fun (content, tail) => (c :: content, tail)

theorem length_tagContent {quote : Option Char} {s content tail : List Char}
    (h : tagContent quote s = some (content, tail)) : tail.length ≤ s.length := by
  induction s generalizing quote content with
  | nil => simp [tagContent] at h
  | cons c rest ih =>
    simp only [tagContent] at h
    split at h
    · simp only [Option.some.injEq, Prod.mk.injEq] at h
      simp [← h.2]
    · simp only [Option.map_eq_some_iff] at h
      obtain ⟨⟨content', tail'⟩, h', e⟩ := h
      simp only [Prod.mk.injEq] at e
      obtain ⟨-, rfl⟩ := e
      have := ih h'
      simp only [List.length_cons]
      omega

/-- The content of a document type up to its closing bracket, where brackets inside it come in
pairs, and the text after it. -/
def docTypeContent (depth : Nat) : List Char → Option (List Char × List Char)
  | [] => none
  | c :: rest =>
    if c = '>' ∧ depth = 0 then some ([], rest)
    else
      let depth' := if c = '<' then depth + 1 else if c = '>' then depth - 1 else depth
      (docTypeContent depth' rest).map fun (content, tail) => (c :: content, tail)

theorem length_docTypeContent {depth : Nat} {s content tail : List Char}
    (h : docTypeContent depth s = some (content, tail)) : tail.length ≤ s.length := by
  induction s generalizing depth content with
  | nil => simp [docTypeContent] at h
  | cons c rest ih =>
    simp only [docTypeContent] at h
    split at h
    · simp only [Option.some.injEq, Prod.mk.injEq] at h
      simp [← h.2]
    · simp only [Option.map_eq_some_iff] at h
      obtain ⟨⟨content', tail'⟩, h', e⟩ := h
      simp only [Prod.mk.injEq] at e
      obtain ⟨-, rfl⟩ := e
      have := ih h'
      simp only [List.length_cons]
      omega

/-- Whether a document type is spelled as one and names a type. -/
def checkDocType (content : List Char) : Except MarkupFault Unit :=
  if (content.take 7).map Char.toUpper = "DOCTYPE".toList then
    if (content.drop 7).all isSpace then .error .docTypeName else .ok ()
  else .error .docType

/-- Cuts off the end of a closing tag's content; blanks alone stay. -/
def closingName (content : List Char) : List Char :=
  if content.all isSpace then content else (content.reverse.dropWhile isSpace).reverse

/-- The event of an opening tag. -/
def openingOf (content : List Char) : Event :=
  if content.getLast? = some '/' then .opening content.dropLast true else .opening content false

/-- The text after an instruction. The mark that opens an instruction does not close it as well. -/
def afterInstruction? (s : List Char) : Option (List Char) :=
  if s.head? = some '>' then none else after? ['?', '>'] s

/-- The markup after an opening bracket: its event, when it has one, and the text after it. -/
def markup (s : List Char) : Except MarkupFault (Option Event × List Char) :=
  match s with
  | '!' :: '-' :: rest =>
    match (dropStart? ['-'] rest).bind (after? ['-', '-', '>']) with
    | some tail => .ok (none, tail)
    | none => .error .comment
  | '!' :: '[' :: rest =>
    match (dropStart? "CDATA[".toList rest).bind (after? [']', ']', '>']) with
    | some tail => .ok (none, tail)
    | none => .error .unparsed
  | '!' :: rest =>
    if rest.head? = some 'D' ∨ rest.head? = some 'd' then
      match docTypeContent 0 rest with
      | some (content, tail) => (checkDocType content).map fun _ => (none, tail)
      | none => .error .docType
    else .error .unknown
  | '?' :: rest =>
    match afterInstruction? rest with
    | some tail => .ok (none, tail)
    | none => .error .instruction
  | '/' :: rest =>
    match tagContent none rest with
    | some (content, tail) => .ok (some (.closing (closingName content)), tail)
    | none => .error .tag
  | rest =>
    match tagContent none rest with
    | some (content, tail) => .ok (some (openingOf content), tail)
    | none => .error .tag

theorem length_of_bind_after? {mark start s tail : List Char}
    (h : (dropStart? start s).bind (after? mark) = some tail) : tail.length ≤ s.length := by
  obtain ⟨t, ht, h⟩ := Option.bind_eq_some_iff.1 h
  have h1 := length_after? h
  have h2 := congrArg List.length (dropStart?_eq_some_iff.1 ht)
  simp only [List.length_append] at h2
  omega

theorem length_afterInstruction? {s tail : List Char} (h : afterInstruction? s = some tail) :
    tail.length ≤ s.length := by
  unfold afterInstruction? at h
  split at h
  · cases h
  · exact length_after? h

theorem length_markup {s tail : List Char} {e : Option Event}
    (h : markup s = .ok (e, tail)) : tail.length ≤ s.length := by
  -- Each kind of markup only drops what it has read.
  unfold markup at h
  split at h
  · split at h
    · next ht =>
      cases h
      have := length_of_bind_after? ht
      simp only [List.length_cons]
      omega
    · simp at h
  · split at h
    · next ht =>
      cases h
      have := length_of_bind_after? ht
      simp only [List.length_cons]
      omega
    · simp at h
  · split at h
    · split at h
      · next content t ht =>
        have hlen := length_docTypeContent ht
        cases hc : checkDocType content <;> rw [hc] at h <;> simp [Except.map] at h
        rw [← h.2]
        simp only [List.length_cons]
        omega
      · simp at h
    · simp at h
  · split at h
    · next ht =>
      cases h
      have := length_afterInstruction? ht
      simp only [List.length_cons]
      omega
    · simp at h
  · split at h
    · next ht =>
      cases h
      have := length_tagContent ht
      simp only [List.length_cons]
      omega
    · simp at h
  · split at h
    · next ht =>
      cases h
      exact length_tagContent ht
    · simp at h

/-- The events of a document in order, and the fault that ends them, when there is one. -/
def scan (s : List Char) : List Event × Option MarkupFault :=
  match h : s.dropWhile (· ≠ '<') with
  | [] => ([], none)
  | _ :: rest =>
    have hrest : rest.length < s.length := by
      have := (List.dropWhile_suffix (· ≠ '<') (l := s)).length_le
      rw [h] at this
      simp only [List.length_cons] at this
      omega
    match hm : markup rest with
    | .error fault => ([], some fault)
    | .ok (event, tail) =>
      have := length_markup hm
      let (events, fault) := scan tail
      (event.toList ++ events, fault)
termination_by s.length
decreasing_by omega

end MarkupScene.Markup
