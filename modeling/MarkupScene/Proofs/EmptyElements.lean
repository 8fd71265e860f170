import MarkupScene.Proofs.BalancedDocuments

/-!
# Empty elements

An element without content is written as one tag that ends in a slash, or as an opening tag with its
closing tag right after it. Where a piece of markup ends does not depend on what comes after it, so
that the rest of a document is cut in the same way after both. The main statement is that both are
read as the same wherever they stand, as a tree or as a fault, unless the name starts with a colon:
the qualified name of such an element is not the name as it is written, and the closing tag is
refused.
-/
namespace MarkupScene.Markup

open Text

variable {s tail content : List Char}

theorem after?_append (mark tail : List Char) : after? mark (mark ++ tail) = some tail := by
  cases mark with
  | nil => cases tail <;> rfl
  | cons m mark =>
    have hstart : dropStart? (m :: mark) (m :: mark ++ tail) = some tail :=
      dropStart?_eq_some_iff.2 rfl
    rw [List.cons_append] at hstart ⊢
    rw [after?, hstart]

/-- The first occurrence of a mark stays the first one whatever follows it. -/
theorem exists_of_after? {mark : List Char} (h : after? mark s = some tail) :
    ∃ before, s = before ++ mark ++ tail ∧ ∀ t, after? mark (before ++ mark ++ t) = some t := by
  induction s with
  | nil =>
    cases mark with
    | nil =>
      obtain rfl := Option.some.inj h
      exact ⟨[], rfl, after?_append []⟩
    | cons => cases h
  | cons c rest ih =>
    rw [after?] at h
    split at h
    · next hstart =>
      obtain rfl := Option.some.inj h
      exact ⟨[], dropStart?_eq_some_iff.1 hstart, after?_append mark⟩
    · next hnone =>
      obtain ⟨before, rfl, hbefore⟩ := ih h
      refine ⟨c :: before, rfl, fun t => ?_⟩
      have hlater : dropStart? mark (c :: (before ++ mark ++ t)) = none := by
        refine Option.eq_none_iff_forall_not_mem.2 fun u hu => ?_
        -- The mark would start at `c` and end within the characters before `tail`.
        have hmark : mark <+: (c :: (before ++ mark)) ++ t :=
          ⟨u, (dropStart?_eq_some_iff.1 hu).symm⟩
        obtain ⟨more, hmore⟩ := List.prefix_of_prefix_length_le hmark (List.prefix_append _ t)
          (by simp; omega)
        have hfound : dropStart? mark (c :: (before ++ mark ++ tail)) = some (more ++ tail) :=
          dropStart?_eq_some_iff.2 (by rw [← List.append_assoc, hmore, List.cons_append])
        rw [hfound] at hnone
        cases hnone
      rw [List.cons_append, List.cons_append, after?, hlater]
      exact hbefore t

/-- Content up to the first closing bracket that counts in the state it is met in is the same
whatever comes after the bracket. -/
theorem exists_of_content {σ : Type} {take : σ → List Char → Option (List Char × List Char)}
    (ends : σ → Prop) [DecidablePred ends] (next : σ → Char → σ) {state : σ}
    (hnil : ∀ q, take q [] = none)
    (hcons : ∀ q c rest, take q (c :: rest) =
      if c = '>' ∧ ends q then some ([], rest)
      else (take (next q c) rest).map fun (content, tail) => (c :: content, tail))
    (h : take state s = some (content, tail)) :
    s = content ++ '>' :: tail ∧ ∀ t, take state (content ++ '>' :: t) = some (content, t) := by
  induction s generalizing state content with
  | nil =>
    rw [hnil] at h
    cases h
  | cons c rest ih =>
    rw [hcons] at h
    split at h
    · next hend =>
      obtain ⟨rfl, hstate⟩ := hend
      obtain ⟨rfl, rfl⟩ := Prod.mk.inj (Option.some.inj h)
      refine ⟨rfl, fun t => ?_⟩
      rw [List.nil_append, hcons, if_pos ⟨rfl, hstate⟩]
    · next hgoes =>
      obtain ⟨⟨inner, after⟩, hinner, hpair⟩ := Option.map_eq_some_iff.1 h
      obtain ⟨rfl, rfl⟩ := Prod.mk.inj hpair
      obtain ⟨rfl, hlocal⟩ := ih hinner
      refine ⟨rfl, fun t => ?_⟩
      rw [List.cons_append, hcons, if_neg hgoes, hlocal t]
      rfl

theorem exists_of_tagContent {quote : Option Char} (h : tagContent quote s = some (content, tail)) :
    s = content ++ '>' :: tail ∧ ∀ t, tagContent quote (content ++ '>' :: t) = some (content, t) :=
  exists_of_content (· = none)
    (fun quote c =>
      if quote = none ∧ (c = '"' ∨ c = '\'') then some c
      else if quote = some c then none
      else quote)
    (fun _ => rfl) (fun _ _ _ => rfl) h

theorem exists_of_docTypeContent {depth : Nat} (h : docTypeContent depth s = some (content, tail)) :
    s = content ++ '>' :: tail ∧
      ∀ t, docTypeContent depth (content ++ '>' :: t) = some (content, t) :=
  exists_of_content (· = 0)
    (fun depth c => if c = '<' then depth + 1 else if c = '>' then depth - 1 else depth)
    (fun _ => rfl) (fun _ _ _ => rfl) h

/-- The text after an opening bracket goes on as the content of an opening tag. -/
def StartsTag (s : List Char) : Prop := ∀ c ∈ s.head?, c ≠ '!' ∧ c ≠ '?' ∧ c ≠ '/'

theorem startsTag_of_ne (hbang : ∀ rest, s = '!' :: rest → False)
    (hinstruction : ∀ rest, s = '?' :: rest → False)
    (hclosing : ∀ rest, s = '/' :: rest → False) : StartsTag s := by
  intro c hc
  cases s with
  | nil => cases hc
  | cons d rest =>
    obtain rfl := Option.some.inj hc
    exact ⟨fun he => hbang rest (he ▸ rfl), fun he => hinstruction rest (he ▸ rfl),
      fun he => hclosing rest (he ▸ rfl)⟩

theorem markup_of_startsTag (h : StartsTag s) :
    markup s = match tagContent none s with
      | some (content, tail) => .ok (some (openingOf content), tail)
      | none => .error .tag := by
  unfold markup
  split
  · exact absurd rfl (h '!' rfl).1
  · exact absurd rfl (h '!' rfl).1
  · exact absurd rfl (h '!' rfl).1
  · exact absurd rfl (h '?' rfl).2.1
  · exact absurd rfl (h '/' rfl).2.2
  · rfl

theorem markup_of_docType (h : s.head? = some 'D' ∨ s.head? = some 'd') :
    markup ('!' :: s) = match docTypeContent 0 s with
      | some (content, tail) => (checkDocType content).map fun _ => (none, tail)
      | none => .error .docType := by
  cases s with
  | nil => rcases h with h | h <;> cases h
  | cons c rest =>
    have hc : c = 'D' ∨ c = 'd' := h.imp Option.some.inj Option.some.inj
    rcases hc with rfl | rfl <;> rfl

theorem exists_of_bind_after? {start mark : List Char}
    (h : (dropStart? start s).bind (after? mark) = some tail) :
    ∃ w, s = w ++ tail ∧ ∀ t, (dropStart? start (w ++ t)).bind (after? mark) = some t := by
  obtain ⟨inner, hstart, hinner⟩ := Option.bind_eq_some_iff.1 h
  obtain rfl := dropStart?_eq_some_iff.1 hstart
  obtain ⟨before, rfl, hbefore⟩ := exists_of_after? hinner
  refine ⟨start ++ (before ++ mark), (List.append_assoc _ _ _).symm, fun t => ?_⟩
  rw [dropStart?_eq_some_iff.2 (List.append_assoc _ _ _)]
  exact hbefore t

theorem exists_of_afterInstruction? (h : afterInstruction? s = some tail) :
    ∃ w, s = w ++ tail ∧ ∀ t, afterInstruction? (w ++ t) = some t := by
  unfold afterInstruction? at h
  split at h
  · cases h
  · next hopen =>
    obtain ⟨before, rfl, hbefore⟩ := exists_of_after? h
    refine ⟨before ++ ['?', '>'], rfl, fun t => ?_⟩
    have hopen' : (before ++ ['?', '>'] ++ t).head? ≠ some '>' := by
      cases before with
      | nil => simp
      | cons => exact hopen
    rw [afterInstruction?, if_neg hopen']
    exact hbefore t

/-- A piece of markup is the same whatever comes after it. -/
theorem exists_of_markup {piece : Option Event} (h : markup s = .ok (piece, tail)) :
    ∃ w, s = w ++ tail ∧ ∀ t, markup (w ++ t) = .ok (piece, t) := by
  -- Every kind of markup looks for its own end mark and reads nothing after it.
  unfold markup at h
  split at h
  case h_1 rest =>
    split at h
    · next hafter =>
      obtain ⟨rfl, rfl⟩ := Prod.mk.inj (Except.ok.inj h)
      obtain ⟨w, rfl, hw⟩ := exists_of_bind_after? hafter
      exact ⟨'!' :: '-' :: w, rfl, fun t => by simp only [List.cons_append, markup, hw t]⟩
    · cases h
  case h_2 rest =>
    split at h
    · next hafter =>
      obtain ⟨rfl, rfl⟩ := Prod.mk.inj (Except.ok.inj h)
      obtain ⟨w, rfl, hw⟩ := exists_of_bind_after? hafter
      exact ⟨'!' :: '[' :: w, rfl, fun t => by simp only [List.cons_append, markup, hw t]⟩
    · cases h
  case h_3 rest hcomment hunparsed =>
    split at h
    · next hletter =>
      split at h
      · next content tail' hcontent =>
        obtain ⟨rfl, hlocal⟩ := exists_of_docTypeContent hcontent
        cases hcheck : checkDocType content with
        | error =>
          rw [hcheck] at h
          cases h
        | ok =>
          rw [hcheck] at h
          obtain ⟨rfl, rfl⟩ := Prod.mk.inj (Except.ok.inj h)
          refine ⟨'!' :: (content ++ ['>']), by simp, fun t => ?_⟩
          have hletter' : (content ++ '>' :: t).head? = some 'D' ∨
              (content ++ '>' :: t).head? = some 'd' := by
            simpa only [List.head?_append, List.head?_cons] using hletter
          rw [List.cons_append, List.append_assoc, List.singleton_append,
            markup_of_docType hletter', hlocal t]
          dsimp only
          rw [hcheck]
          rfl
      · cases h
    · cases h
  case h_4 rest =>
    split at h
    · next hafter =>
      obtain ⟨rfl, rfl⟩ := Prod.mk.inj (Except.ok.inj h)
      obtain ⟨w, rfl, hw⟩ := exists_of_afterInstruction? hafter
      exact ⟨'?' :: w, rfl, fun t => by simp only [List.cons_append, markup, hw t]⟩
    · cases h
  case h_5 rest =>
    split at h
    · next content tail' hcontent =>
      obtain ⟨rfl, rfl⟩ := Prod.mk.inj (Except.ok.inj h)
      obtain ⟨rfl, hlocal⟩ := exists_of_tagContent hcontent
      refine ⟨'/' :: (content ++ ['>']), by simp, fun t => ?_⟩
      simp only [List.cons_append, List.append_assoc, List.nil_append, markup, hlocal t]
    · cases h
  case h_6 hcomment hunparsed hbang hinstruction hclosing =>
    have hstart := startsTag_of_ne hbang hinstruction hclosing
    split at h
    · next content tail' hcontent =>
      obtain ⟨rfl, rfl⟩ := Prod.mk.inj (Except.ok.inj h)
      obtain ⟨rfl, hlocal⟩ := exists_of_tagContent hcontent
      refine ⟨content ++ ['>'], by simp, fun t => ?_⟩
      have hstart' : StartsTag (content ++ '>' :: t) := by
        simpa only [StartsTag, List.head?_append, List.head?_cons] using hstart
      rw [List.append_assoc, List.singleton_append, markup_of_startsTag hstart', hlocal t]
    · cases h

theorem scan_plain_append {text : List Char} (h : '<' ∉ text) (s : List Char) :
    scan (text ++ s) = scan s := by
  by_cases hs : '<' ∈ s
  · obtain ⟨before, rest, rfl, hbefore⟩ := List.eq_append_cons_of_mem hs
    have hplain : '<' ∉ text ++ before := by
      rw [List.mem_append]
      exact not_or.2 ⟨h, hbefore⟩
    rw [← List.append_assoc]
    cases hcut : markup rest with
    | error fault => rw [scan_of_fault hplain hcut, scan_of_fault hbefore hcut]
    | ok cut =>
      obtain ⟨piece, tail⟩ := cut
      rw [scan_of_markup hplain hcut, scan_of_markup hbefore hcut]
  · rw [scan_of_plain hs, scan_of_plain]
    rw [List.mem_append]
    exact not_or.2 ⟨h, hs⟩

theorem scan_markup_append {before w : List Char} {piece : Option Event} (h : '<' ∉ before)
    (hw : ∀ t, markup (w ++ t) = .ok (piece, t)) (s : List Char) :
    scan (before ++ '<' :: w ++ s) = (piece.toList ++ (scan s).1, (scan s).2) := by
  rw [List.append_assoc, List.cons_append, scan_of_markup h (hw s)]

theorem scan_append {before : List Char} {tags : List Event} (h : scan before = (tags, none))
    (s : List Char) : scan (before ++ s) = (tags ++ (scan s).1, (scan s).2) := by
  obtain ⟨pieces, hpieces, rfl⟩ := exists_cutsInto_of_scan h
  clear h
  induction hpieces with
  | plain text => exact scan_plain_append text s
  | @markup before rest tail piece pieces text cut more ih =>
    obtain ⟨w, rfl, hw⟩ := exists_of_markup cut
    rw [← List.cons_append, ← List.append_assoc, List.append_assoc, scan_markup_append text hw, ih]
    cases piece <;> rfl

/-- One tag that ends in a slash. -/
def selfClosed (content : List Char) : List Char := '<' :: (content ++ ['/', '>'])

/-- An opening tag and the closing tag of its name. -/
def spelledOut (content : List Char) : List Char :=
  '<' :: (content ++ ['>']) ++ '<' :: '/' :: (nameOf content ++ ['>'])

/-- The content is that of an opening tag, and its name that of a closing tag: neither tag ends
early or late at a bracket or a quote, and the opening one does not end in a slash. -/
structure SpellsOut (content : List Char) : Prop where
  opening : markup (content ++ ['>']) = .ok (some (.opening content false), [])
  closing : markup ('/' :: (nameOf content ++ ['>'])) = .ok (some (.closing (nameOf content)), [])

theorem exists_of_opening {selfClosing : Bool}
    (h : markup s = .ok (some (.opening content selfClosing), tail)) :
    StartsTag s ∧ ∃ inner, tagContent none s = some (inner, tail) ∧
      openingOf inner = .opening content selfClosing := by
  by_cases hstart : StartsTag s
  · rw [markup_of_startsTag hstart] at h
    split at h
    · next inner tail' hinner =>
      obtain ⟨hevent, rfl⟩ := Prod.mk.inj (Except.ok.inj h)
      exact ⟨hstart, inner, hinner, Option.some.inj hevent⟩
    · cases h
  · unfold markup at h
    split at h
    case h_6 hcomment hunparsed hbang hinstruction hclosing =>
      exact absurd (startsTag_of_ne hbang hinstruction hclosing) hstart
    case h_3 =>
      split at h
      · split at h
        · next inner _ _ =>
          cases hcheck : checkDocType inner <;> rw [hcheck] at h <;> cases h
        · cases h
      · cases h
    all_goals split at h <;> cases h

theorem openingOf_eq_single {inner : List Char} (h : openingOf inner = .opening content true) :
    inner = content ++ ['/'] := by
  unfold openingOf at h
  split at h
  · next hlast =>
    obtain ⟨rfl, -⟩ := Event.opening.inj h
    exact (List.dropLast_append_getLast? '/' hlast).symm
  · cases h

theorem openingOf_slash (content : List Char) :
    openingOf (content ++ ['/']) = .opening content true := by
  simp [openingOf]

/-- A slash before the closing bracket changes nothing about where the tag ends. -/
theorem tagContent_slash {quote : Option Char}
    (h : tagContent quote (content ++ ['>']) = some (content, [])) (t : List Char) :
    tagContent quote (content ++ '/' :: '>' :: t) = some (content ++ ['/'], t) := by
  induction content generalizing quote with
  | nil =>
    rw [List.nil_append, tagContent] at h
    split at h
    · next hend =>
      obtain ⟨-, rfl⟩ := hend
      rfl
    · obtain ⟨pair, -, hpair⟩ := Option.map_eq_some_iff.1 h
      cases hpair
  | cons c content ih =>
    rw [List.cons_append, tagContent] at h
    split at h
    · cases h
    · next hgoes =>
      obtain ⟨⟨inner, after⟩, hinner, hpair⟩ := Option.map_eq_some_iff.1 h
      obtain ⟨hcons, rfl⟩ := Prod.mk.inj hpair
      obtain rfl := (List.cons.inj hcons).2
      rw [List.cons_append, tagContent, if_neg hgoes]
      dsimp only
      rw [ih hinner]
      rfl

theorem SpellsOut.markup_selfClosed (h : SpellsOut content) (hcontent : content ≠ [])
    (t : List Char) :
    markup (content ++ ['/', '>'] ++ t) = .ok (some (.opening content true), t) := by
  obtain ⟨hstart, inner, hinner, hevent⟩ := exists_of_opening h.opening
  have hsame : inner = content := by
    have htext := (exists_of_tagContent hinner).1
    exact (List.append_cancel_right htext).symm
  subst hsame
  have hstart' : StartsTag (inner ++ ['/', '>'] ++ t) := by
    cases inner with
    | nil => exact absurd rfl hcontent
    | cons => exact hstart
  have hslash := tagContent_slash hinner t
  rw [markup_of_startsTag hstart']
  simp only [List.append_assoc, List.cons_append, List.nil_append]
  rw [hslash]
  dsimp only
  rw [openingOf_slash]

theorem SpellsOut.scan_selfClosed (h : SpellsOut content) (hcontent : content ≠ [])
    (s : List Char) :
    scan (selfClosed content ++ s) = (.opening content true :: (scan s).1, (scan s).2) :=
  scan_markup_append List.not_mem_nil (h.markup_selfClosed hcontent) s

theorem SpellsOut.scan_spelledOut (h : SpellsOut content) (s : List Char) :
    scan (spelledOut content ++ s) =
      (.opening content false :: .closing (nameOf content) :: (scan s).1, (scan s).2) := by
  have hlocal : ∀ {w : List Char} {piece : Option Event}, markup w = .ok (piece, []) →
      ∀ t, markup (w ++ t) = .ok (piece, t) := by
    intro w piece hw
    obtain ⟨v, hv, hall⟩ := exists_of_markup hw
    rw [List.append_nil] at hv
    exact hv ▸ hall
  have hclosing := scan_markup_append List.not_mem_nil (hlocal h.closing) s
  have hopening := scan_markup_append List.not_mem_nil (hlocal h.opening)
    ('<' :: '/' :: (nameOf content ++ ['>']) ++ s)
  rw [List.nil_append] at hclosing hopening
  rw [spelledOut, List.append_assoc, hopening, hclosing]
  rfl

/-- A self-closing tag stands where the text before it comes to its end. -/
theorem exists_of_scan_opening {tags more : List Event}
    (h : (scan s).1 = tags ++ .opening content true :: more) :
    ∃ before after, s = before ++ selfClosed content ++ after ∧ scan before = (tags, none) := by
  fun_induction scan s generalizing tags with
  | case1 => exact absurd h (by simp)
  | case2 => exact absurd h (by simp)
  | case3 s c rest hrest _ piece tail hcut _ events fault hscan ih =>
    obtain ⟨before, hbefore, rfl⟩ := exists_of_dropWhile hrest
    obtain ⟨w, rfl, hw⟩ := exists_of_markup hcut
    have hlater : ∀ {tags' : List Event}, tags = piece.toList ++ tags' →
        events = tags' ++ .opening content true :: more →
        ∃ front after, before ++ '<' :: (w ++ tail) = front ++ selfClosed content ++ after ∧
          scan front = (tags, none) := by
      intro tags' htags hevents
      rw [hscan] at ih
      obtain ⟨front, after, rfl, hfront⟩ := ih hevents
      refine ⟨before ++ '<' :: w ++ front, after, by simp, ?_⟩
      rw [scan_markup_append hbefore hw, hfront, htags]
    cases piece with
    | none => exact hlater rfl h
    | some x =>
      cases tags with
      | cons first tags' =>
        obtain ⟨rfl, hevents⟩ := List.cons.inj h
        exact hlater rfl hevents
      | nil =>
        obtain ⟨rfl, -⟩ := List.cons.inj h
        obtain ⟨-, inner, hinner, hevent⟩ := exists_of_opening hcut
        obtain rfl := openingOf_eq_single hevent
        refine ⟨before, tail, ?_, scan_of_plain hbefore⟩
        rw [(exists_of_tagContent hinner).1, selfClosed]
        simp

theorem read_pair_nil {inherited : Dictionary String}
    (h : ∀ e, elementOf inherited content = .ok e → e.qualifiedName = .ofList (nameOf content)) :
    (Bracket.pair content []).read inherited = (Bracket.single content).read inherited := by
  rw [Bracket.read, Bracket.read]
  cases hopened : elementOf inherited content with
  | error fault => rfl
  | ok e =>
    have hchildless := children_elementOf hopened
    change (if e.qualifiedName ≠ .ofList (nameOf content) then _ else _) = _
    rw [if_neg (not_not.2 (h e hopened))]
    cases e
    cases hchildless
    rfl

theorem readDocument_eq_of_scan {text text' : List Char} {tags part part' more : List Event}
    {fault : Option MarkupFault} (h : scan text = (tags ++ (part ++ more), fault))
    (h' : scan text' = (tags ++ (part' ++ more), fault))
    (hpart : ∀ p, part.foldlM Progress.step p = part'.foldlM Progress.step p) :
    readDocument (.ofList text) = readDocument (.ofList text') := by
  have hfold : (tags ++ (part ++ more)).foldlM Progress.step {} =
      (tags ++ (part' ++ more)).foldlM Progress.step {} := by
    simp only [List.foldlM_append, hpart]
  rw [readDocument, readDocument, String.toList_ofList, String.toList_ofList, h, h']
  dsimp only
  rw [hfold]

theorem qualifiedName_elementOf_colon {inherited : Dictionary String} {e : Element}
    (h : elementOf inherited content = .ok e) (hcolon : (nameOf content).head? = some ':') :
    e.qualifiedName = .ofList (nameOf content).tail := by
  obtain ⟨-, attributes, -, rfl⟩ := elementOf_eq_ok_iff.1 h
  rw [qualifiedName_foldl_takeAttribute]
  obtain ⟨rest, hname⟩ := List.head?_eq_some_iff.1 hcolon
  rw [hname]
  rfl

theorem read_pair_nil_colon {inherited : Dictionary String} {e : Element}
    (h : elementOf inherited content = .ok e) (hcolon : (nameOf content).head? = some ':') :
    (Bracket.pair content []).read inherited =
      .error (.mismatched (.ofList (nameOf content).tail) (.ofList (nameOf content))) := by
  have hqualified := qualifiedName_elementOf_colon h hcolon
  have hne : e.qualifiedName ≠ .ofList (nameOf content) := by
    obtain ⟨rest, hname⟩ := List.head?_eq_some_iff.1 hcolon
    rw [hqualified, hname]
    intro hsame
    have hlength := congrArg List.length (String.ofList_injective hsame)
    simp at hlength
  rw [Bracket.read, h]
  change (if e.qualifiedName ≠ .ofList (nameOf content) then _ else _) = _
  rw [if_pos hne, hqualified]

/-- Wherever an element without content stands in a document, one tag that ends in a slash and an
opening tag with its closing tag make the same tree or the same fault, when the name does not start
with a colon. When it does, the closing tag is refused although the other way is read. Each
self-closing tag of a document is in such a place. -/
theorem empty_elements_agree (content : List Char) (hcontent : content ≠ [])
    (hpair : SpellsOut content) :
    (∀ before after tags, scan before = (tags, none) →
      ((nameOf content).head? ≠ some ':' →
        readDocument (.ofList (before ++ selfClosed content ++ after)) =
          readDocument (.ofList (before ++ spelledOut content ++ after))) ∧
      ∀ p e, (nameOf content).head? = some ':' → tags.foldlM Progress.step {} = .ok p →
        elementOf p.scope content = .ok e →
          readDocument (.ofList (before ++ spelledOut content ++ after)) =
            .error (.mismatched (.ofList (nameOf content).tail) (.ofList (nameOf content)))) ∧
    ∀ text tags more, (scan text).1 = tags ++ .opening content true :: more → ∃ before after,
      text = before ++ selfClosed content ++ after ∧ scan before = (tags, none) := by
  refine ⟨fun before after tags hbefore => ?_, fun text tags more h => exists_of_scan_opening h⟩
  have hsingle : scan (before ++ selfClosed content ++ after) =
      (tags ++ ((Bracket.single content).events ++ (scan after).1), (scan after).2) := by
    rw [List.append_assoc, scan_append hbefore, hpair.scan_selfClosed hcontent]
    rfl
  have hboth : scan (before ++ spelledOut content ++ after) =
      (tags ++ ((Bracket.pair content []).events ++ (scan after).1), (scan after).2) := by
    rw [List.append_assoc, scan_append hbefore, hpair.scan_spelledOut]
    rfl
  refine ⟨fun hcolon => readDocument_eq_of_scan hsingle hboth fun p => ?_,
    fun p e hcolon hp he => ?_⟩
  · rw [Bracket.foldlM_events, Bracket.foldlM_events,
      read_pair_nil fun e he => qualifiedName_elementOf he hcolon]
  · rw [readDocument, String.toList_ofList, hboth]
    dsimp only
    rw [List.foldlM_append, hp]
    change (((Bracket.pair content []).events ++ (scan after).1).foldlM Progress.step p >>= _) = _
    rw [List.foldlM_append, Bracket.foldlM_events, read_pair_nil_colon he hcolon]
    rfl

theorem empty_elements_nested :
    "b x='1'".toList ≠ [] ∧ SpellsOut "b x='1'".toList ∧
      scan "<a>".toList = ([.opening ['a'] false], none) ∧
      readDocument "<a><b x='1'></b><c/></a>" = readDocument "<a><b x='1'/><c/></a>" ∧
      readDocument "<a><b x='1'/><c/></a>" = .ok { localName := "a", children :=
        [{ localName := "b", attributes := [("x", "1")] }, { localName := "c" }] } := by
  have hcontent : "b x='1'".toList ≠ [] := by decide
  have hpair : SpellsOut "b x='1'".toList := ⟨by decide, by decide⟩
  have hbefore : scan "<a>".toList = ([.opening ['a'] false], none) := by decide +kernel
  have hagree := ((empty_elements_agree _ hcontent hpair).1 _ "<c/></a>".toList _ hbefore).1
    (by decide)
  have hscan : scan "<a><b x='1'/><c/></a>".toList =
      ((Bracket.pair ['a'] [.single "b x='1'".toList, .single ['c']]).events, none) := by
    decide +kernel
  refine ⟨hcontent, hpair, hbefore, hagree.symm, ?_⟩
  rw [readDocument_of_scan hscan]
  decide +kernel

/-- The closing tag of a name that starts with a colon is refused. -/
theorem colon_element_differs :
    ¬ ∀ content before after tags, content ≠ [] → SpellsOut content → scan before = (tags, none) →
      (∃ root, readDocument (.ofList (before ++ selfClosed content ++ after)) = .ok root ∧
        readDocument (.ofList (before ++ spelledOut content ++ after)) = .ok root) ∨
      ∃ fault fault', readDocument (.ofList (before ++ selfClosed content ++ after)) =
          .error fault ∧
        readDocument (.ofList (before ++ spelledOut content ++ after)) = .error fault' := by
  intro hall
  have hsingle : scan "<:b/>".toList = ((Bracket.single [':', 'b']).events, none) := by
    decide +kernel
  have hboth : scan "<:b></:b>".toList = ((Bracket.pair [':', 'b'] []).events, none) := by
    decide +kernel
  have hshort : readDocument "<:b/>" = .ok { localName := "b" } := by
    rw [readDocument_of_scan hsingle]
    decide +kernel
  have hlong : readDocument "<:b></:b>" = .error (.mismatched "b" ":b") := by
    rw [readDocument_of_scan hboth]
    decide +kernel
  rcases hall [':', 'b'] [] [] [] nofun ⟨by decide, by decide⟩ (scan_of_plain List.not_mem_nil) with
    ⟨root, -, hroot⟩ | ⟨fault, -, hfault, -⟩
  · cases hlong.symm.trans hroot
  · cases hshort.symm.trans hfault

end MarkupScene.Markup
