import MarkupScene.Proofs.BalancedDocuments

/-!
# Scopes of namespaces

A tag holds declarations of namespaces and attributes of its element. A declaration is in force for
the element and all elements inside it, where a declaration further in comes before one further
out. The main statement says so of each element of a document, found along a way of indices, with
the tags on that way.
-/
namespace MarkupScene

open Text

/-- The element at the end of a way from an element, as indices of children. -/
def Element.descendant? (e : Element) : List Nat → Option Element
  | [] => some e
  | i :: way => (e.children[i]?).bind fun c => c.descendant? way

theorem exists_getElem?_of_forall₂ {α β : Type} {R : α → β → Prop} {as : List α} {bs : List β}
    (h : List.Forall₂ R as bs) {i : Nat} {b : β} (hb : bs[i]? = some b) :
    ∃ a, as[i]? = some a ∧ R a b := by
  induction h generalizing i with
  | nil => cases hb
  | cons hab _ ih =>
    cases i with
    | zero =>
      obtain rfl := Option.some.inj hb
      exact ⟨_, rfl, hab⟩
    | succ i => exact ih hb

namespace Markup

/-- The text that a raw value stands for: a character for each entity, and all else as it is. -/
inductive Resolves : List Char → List Char → Prop where
  | nil : Resolves [] []
  | plain {c : Char} {rest resolved : List Char} (hc : c ≠ '&') (more : Resolves rest resolved) :
      Resolves (c :: rest) (c :: resolved)
  | entity {name after resolved : List Char} {c : Char} (hname : ∀ x ∈ name, x ≠ '&' ∧ x ≠ ';')
      (hc : entity 0 name = .ok c) (more : Resolves after resolved) :
      Resolves ('&' :: (name ++ ';' :: after)) (c :: resolved)

theorem entity_eq_ok_iff {start : Nat} {name : List Char} {c : Char} :
    entity start name = .ok c ↔ entity 0 name = .ok c := by
  unfold entity
  split
  · exact Iff.rfl
  · split
    · exact Iff.rfl
    · exact ⟨nofun, nofun⟩

/-- The characters of an entity's name. -/
def isPlain (c : Char) : Bool := c ≠ '&' && c ≠ ';'

theorem isPlain_iff {c : Char} : isPlain c = true ↔ c ≠ '&' ∧ c ≠ ';' := by
  simp [isPlain]

theorem resolves_of_unescape {start : Nat} {s resolved : List Char}
    (h : unescape start s = .ok resolved) : Resolves s resolved := by
  fun_induction unescape start s generalizing resolved with
  | case1 =>
    obtain rfl := Except.ok.inj h
    exact .nil
  | case2 start rest _ _ after hafter =>
    rename_i ih
    obtain ⟨c, hc, h⟩ := bind_eq_ok_iff.1 h
    obtain ⟨tail, htail, h⟩ := bind_eq_ok_iff.1 h
    obtain rfl := Except.ok.inj h
    have hname : ∀ x ∈ rest.takeWhile isPlain, x ≠ '&' ∧ x ≠ ';' :=
      fun x hx => isPlain_iff.1 (List.mem_takeWhile_imp hx)
    have hrest : rest = rest.takeWhile isPlain ++ ';' :: after := by
      rw [← hafter]
      exact (List.takeWhile_append_dropWhile ..).symm
    rw [hrest]
    exact .entity hname (entity_eq_ok_iff.1 hc) (ih htail)
  | case3 => cases h
  | case4 start c rest hc ih =>
    obtain ⟨tail, htail, h⟩ := bind_eq_ok_iff.1 h
    obtain rfl := Except.ok.inj h
    exact .plain hc (ih htail)

theorem Resolves.unescape {s resolved : List Char} (h : Resolves s resolved) (start : Nat) :
    unescape start s = .ok resolved := by
  induction h generalizing start with
  | nil => rw [Markup.unescape]
  | plain hc _ ih =>
    rw [Markup.unescape, ih]
    · rfl
    · exact hc
  | @entity name after resolved c hname hc _ ih =>
    have hplain : ∀ x ∈ name, isPlain x = true := fun x hx => isPlain_iff.2 (hname x hx)
    have htake : (name ++ ';' :: after).takeWhile isPlain = name := by
      rw [List.takeWhile_append_of_pos hplain, List.takeWhile_cons_of_neg (by decide),
        List.append_nil]
    have hdrop : (name ++ ';' :: after).dropWhile isPlain = ';' :: after := by
      rw [List.dropWhile_append_of_pos hplain, List.dropWhile_cons_of_neg (by decide)]
    rw [Markup.unescape]
    split
    · next after' hafter =>
      cases hdrop.symm.trans hafter
      have hentity : Markup.entity start ((name ++ ';' :: after).takeWhile isPlain) = .ok c := by
        rw [htake]
        exact entity_eq_ok_iff.2 hc
      exact bind_eq_ok_iff.2 ⟨c, hentity, bind_eq_ok_iff.2 ⟨resolved, ih _, rfl⟩⟩
    · next hnone => exact absurd hdrop (hnone after)

theorem unescape_eq_ok_iff {start : Nat} {s resolved : List Char} :
    unescape start s = .ok resolved ↔ Resolves s resolved :=
  ⟨resolves_of_unescape, fun h => h.unescape start⟩

/-- The attributes that a cursor runs over, with their values as they are written. -/
inductive RunsOver (stop : Nat) : List RawAttribute → Cursor → List RawAttribute → Prop where
  | done {seen : List RawAttribute} {c : Cursor} (last : nextAttribute stop seen c = .ok none) :
      RunsOver stop seen c []
  | more {seen raw : List RawAttribute} {c after : Cursor} {a : RawAttribute}
      (next : nextAttribute stop seen c = .ok (some (a, after)))
      (rest : RunsOver stop (seen ++ [a]) after raw) : RunsOver stop seen c (a :: raw)

/-- An attribute as it is written and as it is read. -/
def RawAttribute.Reads (raw : RawAttribute) (a : String × String) : Prop :=
  ∃ value, Resolves raw.value value ∧ a = (.ofList raw.key, .ofList value)

/-- The attributes after the name of a tag, in the order of the document and with their entities
resolved. -/
def Holds (content : List Char) (row : List (String × String)) : Prop :=
  ∃ raw, RunsOver (byteSize content) []
      ⟨byteSize (nameOf content), content.dropWhile fun c => !isSpace c⟩ raw ∧
    List.Forall₂ RawAttribute.Reads raw row

theorem mapError_eq_ok_iff {ε δ α : Type} {x : Except ε α} {f : ε → δ} {a : α} :
    x.mapError f = .ok a ↔ x = .ok a := by
  cases x with
  | error => exact ⟨nofun, nofun⟩
  | ok b => exact ⟨fun h => congrArg _ (Except.ok.inj h), fun h => congrArg _ (Except.ok.inj h)⟩

theorem attributesFrom_eq_ok_iff {stop : Nat} {seen : List RawAttribute} {c : Cursor}
    {row : List (String × String)} :
    attributesFrom stop seen c = .ok row ↔
      ∃ raw, RunsOver stop seen c raw ∧ List.Forall₂ RawAttribute.Reads raw row := by
  -- The cases are those of the next attribute: a fault, the end, or one more.
  fun_induction attributesFrom stop seen c generalizing row with
  | case1 seen c fault hnext =>
    refine ⟨nofun, ?_⟩
    rintro ⟨_, hraw, -⟩
    cases hraw with
    | done last => cases hnext.symm.trans last
    | more next _ => cases hnext.symm.trans next
  | case2 seen c hnext =>
    constructor
    · intro h
      obtain rfl := Except.ok.inj h
      exact ⟨[], .done hnext, .nil⟩
    · rintro ⟨_, hraw, hrow⟩
      cases hraw with
      | done =>
        cases hrow
        rfl
      | more next _ => cases hnext.symm.trans next
  | case3 seen c a after hnext _ ih =>
    constructor
    · intro h
      obtain ⟨value, hvalue, h⟩ := bind_eq_ok_iff.1 h
      obtain ⟨rest, hrest, h⟩ := bind_eq_ok_iff.1 h
      obtain rfl := Except.ok.inj h
      obtain ⟨raw, hraw, hrow⟩ := ih.1 hrest
      have hresolves := unescape_eq_ok_iff.1 (mapError_eq_ok_iff.1 hvalue)
      exact ⟨a :: raw, .more hnext hraw, .cons ⟨value, hresolves, rfl⟩ hrow⟩
    · rintro ⟨_, hraw, hrow⟩
      cases hraw with
      | done last => cases hnext.symm.trans last
      | more next hraw =>
        cases hnext.symm.trans next
        obtain _ | ⟨⟨value, hresolves, rfl⟩, hrow⟩ := hrow
        have hvalue : (unescape 0 a.value).mapError AttributeFault.entity = .ok value :=
          mapError_eq_ok_iff.2 (unescape_eq_ok_iff.2 hresolves)
        exact bind_eq_ok_iff.2 ⟨value, hvalue, bind_eq_ok_iff.2 ⟨_, ih.2 ⟨_, hraw, hrow⟩, rfl⟩⟩

theorem attributesOf_eq_ok_iff {content : List Char} {row : List (String × String)} :
    attributesOf content = .ok row ↔ Holds content row :=
  attributesFrom_eq_ok_iff

/-- The declarations of namespaces among attributes, as prefixes and namespaces. -/
def declarations (row : List (String × String)) : List (String × String) :=
  row.filterMap fun a => (declaredPrefix? a.1).map fun declared => (declared, a.2)

/-- The attributes that declare nothing. -/
def ownAttributes (row : List (String × String)) : List (String × String) :=
  row.filter fun a => declaredPrefix? a.1 = none

/-- The namespace that the last declaration of a prefix gives it. -/
def lastDeclared? (declared : List (String × String)) (q : String) : Option String :=
  declared.reverse.lookup q

theorem attributes_foldl_takeAttribute (row : List (String × String)) (e : Element) :
    (row.foldl takeAttribute e).attributes = e.attributes ++ ownAttributes row := by
  induction row generalizing e with
  | nil => exact (List.append_nil _).symm
  | cons a rest ih =>
    rw [List.foldl_cons, ih, takeAttribute]
    cases h : declaredPrefix? a.1 with
    | none => simp [ownAttributes, h]
    | some declared => simp [ownAttributes, h]

theorem lastDeclared?_append (declared more : List (String × String)) (q : String) :
    lastDeclared? (declared ++ more) q = (lastDeclared? more q).or (lastDeclared? declared q) := by
  rw [lastDeclared?, List.reverse_append, List.lookup_append]
  rfl

theorem get?_foldl_takeAttribute (row : List (String × String)) (e : Element) (q : String) :
    (row.foldl takeAttribute e).namespaces.get? q =
      (lastDeclared? (declarations row) q).or (e.namespaces.get? q) := by
  induction row generalizing e with
  | nil => rfl
  | cons a rest ih =>
    rw [List.foldl_cons, ih, takeAttribute]
    cases h : declaredPrefix? a.1 with
    | none => simp [declarations, h]
    | some declared =>
      have hcons : declarations (a :: rest) = [(declared, a.2)] ++ declarations rest := by
        simp [declarations, h]
      have hone : lastDeclared? [(declared, a.2)] q = if q = declared then some a.2 else none :=
        Dictionary.lookup_entry ..
      rw [hcons, lastDeclared?_append, Option.or_assoc, hone, Dictionary.get?_insert]
      split <;> rfl

theorem elementOf_holds {inherited : Dictionary String} {content : List Char} {e : Element}
    (h : elementOf inherited content = .ok e) :
    ∃ row, Holds content row ∧ e.attributes = ownAttributes row ∧
      ∀ q, e.namespaces.get? q = (lastDeclared? (declarations row) q).or (inherited.get? q) := by
  obtain ⟨-, row, hrow, rfl⟩ := elementOf_eq_ok_iff.1 h
  refine ⟨row, attributesOf_eq_ok_iff.1 hrow, ?_, get?_foldl_takeAttribute row _⟩
  rw [attributes_foldl_takeAttribute]
  unfold Element.named
  split <;> rfl

namespace Bracket

def content : Bracket → List Char
  | single content => content
  | pair content _ => content

def inner : Bracket → List Bracket
  | single _ => []
  | pair _ inner => inner

/-- The tags that open the elements on a way of indices, both ends included. -/
def lineage? (b : Bracket) : List Nat → Option (List (List Char))
  | [] => some [b.content]
  | i :: way => (b.inner[i]?).bind fun c => (c.lineage? way).map (b.content :: ·)

theorem exists_of_read {b : Bracket} {inherited : Dictionary String} {e : Element}
    (h : b.read inherited = .ok e) :
    ∃ opened, elementOf inherited b.content = .ok opened ∧ e.attributes = opened.attributes ∧
      e.namespaces = opened.namespaces ∧
      List.Forall₂ (fun c child => c.read e.namespaces = .ok child) b.inner e.children := by
  cases b with
  | single content =>
    refine ⟨e, h, rfl, rfl, ?_⟩
    rw [children_elementOf h]
    exact .nil
  | pair content inner =>
    obtain ⟨opened, children, htag, hinside, -, rfl⟩ := read_pair_eq_ok_iff.1 h
    exact ⟨opened, htag, rfl, rfl, readAll_eq_ok_iff.1 hinside⟩

/-- Each element has a tag, and the declarations along its way decide over its namespaces. -/
theorem holds_descendant? {b : Bracket} {inherited : Dictionary String} {root e : Element}
    {way : List Nat} (hread : b.read inherited = .ok root) (he : root.descendant? way = some e) :
    ∃ tags rows row, b.lineage? way = some tags ∧ List.Forall₂ Holds tags rows ∧
      rows.getLast? = some row ∧ e.attributes = ownAttributes row ∧
      ∀ q, e.namespaces.get? q =
        (lastDeclared? (rows.flatMap declarations) q).or (inherited.get? q) := by
  induction way generalizing b inherited root with
  | nil =>
    obtain rfl := Option.some.inj he
    obtain ⟨opened, htag, hattributes, hnamespaces, -⟩ := exists_of_read hread
    obtain ⟨row, hrow, hown, hget⟩ := elementOf_holds htag
    refine ⟨[b.content], [row], row, rfl, .cons hrow .nil, rfl, hattributes.trans hown, fun q => ?_⟩
    rw [hnamespaces, hget, List.flatMap_singleton]
  | cons i way ih =>
    obtain ⟨opened, htag, -, hnamespaces, hinside⟩ := exists_of_read hread
    obtain ⟨row, hrow, -, hget⟩ := elementOf_holds htag
    obtain ⟨child, hchild, he⟩ := Option.bind_eq_some_iff.1 he
    obtain ⟨c, hc, hcread⟩ := exists_getElem?_of_forall₂ hinside hchild
    obtain ⟨tags, rows, last, htags, hrows, hlast, hattributes, hscope⟩ := ih hcread he
    have hlineage : b.lineage? (i :: way) = some (b.content :: tags) := by
      rw [lineage?, hc, Option.bind_some, htags]
      rfl
    have hlast' : (row :: rows).getLast? = some last := by
      rw [List.getLast?_cons, hlast]
      rfl
    refine ⟨_, row :: rows, last, hlineage, .cons hrow hrows, hlast', hattributes, fun q => ?_⟩
    rw [hscope, hnamespaces, hget, List.flatMap_cons, lastDeclared?_append, Option.or_assoc]

end Bracket

/-- For each element of a document, the last declaration of a prefix on the tags from the root down
to the element gives the prefix its namespace, and no other declaration counts. The attributes of
the element are those of its own tag that declare nothing, in order and with their entities
resolved. -/
theorem namespaces_scope {text : String} {root : Element} (h : readDocument text = .ok root) :
    (∃ b : Bracket, Tagged text b.events) ∧
    ∀ b : Bracket, Tagged text b.events → ∀ way e, root.descendant? way = some e →
      ∃ tags rows row, b.lineage? way = some tags ∧ List.Forall₂ Holds tags rows ∧
        (∀ q, e.namespaces.get? q = lastDeclared? (rows.flatMap declarations) q) ∧
        rows.getLast? = some row ∧ e.attributes = ownAttributes row ∧
        ∀ a ∈ e.attributes, declaredPrefix? a.1 = none := by
  obtain ⟨b, hscan, -⟩ := readDocument_eq_ok_iff.1 h
  refine ⟨⟨b, scan_eq_none_iff.1 hscan⟩, fun b htags way e he => ?_⟩
  rw [readDocument_of_scan (scan_eq_none_iff.2 htags)] at h
  obtain ⟨tags, rows, row, hlineage, hrows, hlast, hattributes, hscope⟩ :=
    Bracket.holds_descendant? h he
  refine ⟨tags, rows, row, hlineage, hrows, fun q => ?_, hlast, hattributes, fun a ha => ?_⟩
  · rw [hscope]
    exact Option.or_none
  · rw [hattributes] at ha
    exact of_decide_eq_true (List.mem_filter.1 ha).2

/-- A group declares a prefix again, and a label beside it declares one of its own. -/
def regrouped : Bracket :=
  .pair "e:Skin xmlns:e='u' xmlns='d'".toList
    [.pair "e:Group xmlns:e='v'".toList [.single "Button x='&lt;'".toList],
      .single "Label xmlns:s='w'".toList]

def regroupedText : String :=
  "<e:Skin xmlns:e='u' xmlns='d'><e:Group xmlns:e='v'><Button x='&lt;'/></e:Group>" ++
    "<Label xmlns:s='w'/></e:Skin>"

theorem regrouped_scan : scan regroupedText.toList = (regrouped.events, none) := by decide +kernel

theorem regrouped_skin : attributesOf "e:Skin xmlns:e='u' xmlns='d'".toList =
    .ok [("xmlns:e", "u"), ("xmlns", "d")] := by decide +kernel

theorem regrouped_group : attributesOf "e:Group xmlns:e='v'".toList = .ok [("xmlns:e", "v")] := by
  decide +kernel

theorem regrouped_button : attributesOf "Button x='&lt;'".toList = .ok [("x", "<")] := by
  decide +kernel

theorem regrouped_label : attributesOf "Label xmlns:s='w'".toList = .ok [("xmlns:s", "w")] := by
  decide +kernel

theorem regrouped_read : ∃ root e, readDocument regroupedText = .ok root ∧
    root.descendant? [0, 0] = some e := by
  have hcontents : regrouped.contents = ["e:Skin xmlns:e='u' xmlns='d'".toList,
      "e:Group xmlns:e='v'".toList, "Button x='&lt;'".toList, "Label xmlns:s='w'".toList] := rfl
  have hlegible : ∀ content ∈ regrouped.contents, Legible content := by
    simp only [hcontents, List.forall_mem_cons]
    exact ⟨⟨by decide, _, regrouped_skin⟩, ⟨by decide, _, regrouped_group⟩,
      ⟨by decide, _, regrouped_button⟩, ⟨by decide, _, regrouped_label⟩, nofun⟩
  have hcolon : ∀ content ∈ regrouped.contents, (nameOf content).head? ≠ some ':' := by
    decide +kernel
  obtain ⟨root, hread⟩ := (regrouped.exists_read_iff .empty hcolon).2 hlegible
  obtain ⟨_, -, -, -, hinside⟩ := Bracket.exists_of_read hread
  obtain ⟨group, _, hgroup, -, hchildren⟩ := List.forall₂_cons_left_iff.1 hinside
  obtain ⟨_, -, -, -, hinside⟩ := Bracket.exists_of_read hgroup
  obtain ⟨e, _, -, -, hbuttons⟩ := List.forall₂_cons_left_iff.1 hinside
  refine ⟨root, e, (readDocument_of_scan regrouped_scan).trans hread, ?_⟩
  simp [Element.descendant?, hchildren, hbuttons]

/-- A button in the group has the prefix from the group and the default namespace from the root,
and the label's prefix is unknown to it. -/
theorem regrouped_scopes : ∃ root e, readDocument regroupedText = .ok root ∧
    root.descendant? [0, 0] = some e ∧ e.namespaces.get? "e" = some "v" ∧
    e.namespaces.get? "" = some "d" ∧ e.namespaces.get? "s" = none ∧
    e.attributes = [("x", "<")] := by
  obtain ⟨root, e, hroot, he⟩ := regrouped_read
  obtain ⟨tags, rows, row, htags, hrows, hscope, hlast, hattributes, -⟩ :=
    (namespaces_scope hroot).2 regrouped (scan_eq_none_iff.1 regrouped_scan) [0, 0] e he
  obtain rfl := Option.some.inj htags
  obtain ⟨skin, _, hskin, hinside, rfl⟩ := List.forall₂_cons_left_iff.1 hrows
  obtain ⟨group, _, hgroup, hbuttons, rfl⟩ := List.forall₂_cons_left_iff.1 hinside
  obtain ⟨button, _, hbutton, hnone, rfl⟩ := List.forall₂_cons_left_iff.1 hbuttons
  obtain rfl := List.forall₂_nil_left_iff.1 hnone
  obtain rfl := Except.ok.inj (regrouped_skin.symm.trans (attributesOf_eq_ok_iff.2 hskin))
  obtain rfl := Except.ok.inj (regrouped_group.symm.trans (attributesOf_eq_ok_iff.2 hgroup))
  obtain rfl := Except.ok.inj (regrouped_button.symm.trans (attributesOf_eq_ok_iff.2 hbutton))
  obtain rfl := Option.some.inj hlast
  refine ⟨root, e, hroot, he, ?_, ?_, ?_, ?_⟩
  · rw [hscope]
    decide +kernel
  · rw [hscope]
    decide +kernel
  · rw [hscope]
    decide +kernel
  · rw [hattributes]
    decide +kernel

end Markup

end MarkupScene
