import MarkupScene.Proofs.Brackets
import Mathlib.Data.List.ReduceOption
import Mathlib.Data.List.TakeWhile

/-!
# Balanced documents

A document is cut into pieces at its markup. Tags count, and text, comments, unparsed sections,
instructions and document types are dropped wherever they stand. The main statement is that a
document is read exactly when its tags are those of one bracket and each opening tag has a name and
attributes without a fault, and that the element read has the shape of the bracket. A name that
starts with a colon is another matter, since it is not the qualified name of its element.
-/
namespace MarkupScene

open Text

/-- The shape of an element: the names of the elements inside it, as they are nested. -/
inductive Skeleton where
  | mk (name : String) (inner : List Skeleton)

namespace Element

mutual

def skeleton : Element → Skeleton
  | ⟨namePrefix, localName, _, _, children⟩ =>
    .mk (qualifiedName { namePrefix, localName }) (skeletons children)

def skeletons : List Element → List Skeleton
  | [] => []
  | e :: rest => e.skeleton :: skeletons rest

end

theorem skeleton_eq (e : Element) : e.skeleton = .mk e.qualifiedName (skeletons e.children) := by
  cases e
  rfl

theorem qualifiedName_named {name : List Char} (h : name.head? ≠ some ':') :
    (named name).qualifiedName = .ofList name := by
  unfold named
  split
  · next before after hsplit =>
    rw [eq_of_splitFirst hsplit] at h ⊢
    cases before with
    | nil => exact absurd rfl h
    | cons c before =>
      have hfilled : (String.ofList (c :: before)).isEmpty = false := by simp
      change (if (String.ofList (c :: before)).isEmpty then String.ofList after
        else String.ofList (c :: before) ++ ":" ++ String.ofList after) = _
      rw [hfilled, if_neg Bool.false_ne_true, List.append_cons, String.ofList_append,
        String.ofList_append]
  · rfl

end Element

namespace Markup

/-- Cutting a text at each opening bracket. A piece is a tag, or markup that is none. -/
inductive CutsInto : List Char → List (Option Event) → Prop where
  | plain {s : List Char} (text : '<' ∉ s) : CutsInto s []
  | markup {before rest tail : List Char} {piece : Option Event} {pieces : List (Option Event)}
      (text : '<' ∉ before) (cut : markup rest = .ok (piece, tail)) (more : CutsInto tail pieces) :
      CutsInto (before ++ '<' :: rest) (piece :: pieces)

/-- The tags of a document in order, when all of its markup comes to its end. -/
def Tagged (text : String) (tags : List Event) : Prop :=
  ∃ pieces, CutsInto text.toList pieces ∧ pieces.reduceOption = tags

theorem dropWhile_append_cons {before : List Char} (h : '<' ∉ before) (rest : List Char) :
    (before ++ '<' :: rest).dropWhile (· ≠ '<') = '<' :: rest := by
  have hall : ∀ c ∈ before, decide (c ≠ '<') = true :=
    fun c hc => decide_eq_true fun he => h (he ▸ hc)
  rw [List.dropWhile_append_of_pos hall, List.dropWhile_cons_of_neg (by simp)]

theorem exists_of_dropWhile {s rest : List Char} {c : Char}
    (h : s.dropWhile (· ≠ '<') = c :: rest) :
    ∃ before, '<' ∉ before ∧ s = before ++ '<' :: rest := by
  have hhead := List.head?_dropWhile_not (p := (· ≠ '<')) s
  rw [h] at hhead
  obtain rfl : c = '<' := by simpa using hhead
  refine ⟨s.takeWhile (· ≠ '<'), fun hmem => ?_, ?_⟩
  · simpa using List.mem_takeWhile_imp hmem
  · rw [← h, List.takeWhile_append_dropWhile]

theorem exists_cutsInto_of_scan {s : List Char} {tags : List Event} (h : scan s = (tags, none)) :
    ∃ pieces, CutsInto s pieces ∧ pieces.reduceOption = tags := by
  fun_induction scan s generalizing tags with
  | case1 s hrest =>
    refine ⟨[], .plain fun hmem => ?_, (Prod.mk.inj h).1⟩
    simpa using List.dropWhile_eq_nil_iff.1 hrest '<' hmem
  | case2 => cases h
  | case3 s c rest hrest _ piece tail hcut _ events fault hscan ih =>
    obtain ⟨rfl, rfl⟩ := Prod.mk.inj h
    obtain ⟨pieces, hpieces, rfl⟩ := ih hscan
    obtain ⟨before, hbefore, rfl⟩ := exists_of_dropWhile hrest
    exact ⟨piece :: pieces, .markup hbefore hcut hpieces, by cases piece <;> rfl⟩

theorem scan_of_plain {s : List Char} (h : '<' ∉ s) : scan s = ([], none) := by
  rw [scan]
  split
  · rfl
  · next c rest hrest =>
    obtain ⟨before, -, rfl⟩ := exists_of_dropWhile hrest
    exact absurd (List.mem_append_right _ List.mem_cons_self) h

theorem scan_of_markup {before rest tail : List Char} {piece : Option Event} (h : '<' ∉ before)
    (hcut : markup rest = .ok (piece, tail)) :
    scan (before ++ '<' :: rest) = (piece.toList ++ (scan tail).1, (scan tail).2) := by
  rw [scan]
  split
  · next hrest =>
    rw [dropWhile_append_cons h] at hrest
    cases hrest
  · next c rest' hrest =>
    rw [dropWhile_append_cons h] at hrest
    cases hrest
    split
    · next hfault =>
      rw [hcut] at hfault
      cases hfault
    · next hpiece =>
      rw [hcut] at hpiece
      cases hpiece
      rfl

theorem scan_of_fault {before rest : List Char} {fault : MarkupFault} (h : '<' ∉ before)
    (hfault : markup rest = .error fault) : scan (before ++ '<' :: rest) = ([], some fault) := by
  rw [scan]
  split
  · next hrest =>
    rw [dropWhile_append_cons h] at hrest
    cases hrest
  · next c rest' hrest =>
    rw [dropWhile_append_cons h] at hrest
    cases hrest
    split
    · next hsame =>
      rw [hfault] at hsame
      cases hsame
      rfl
    · next hpiece =>
      rw [hfault] at hpiece
      cases hpiece

theorem CutsInto.scan {s : List Char} {pieces : List (Option Event)} (h : CutsInto s pieces) :
    scan s = (pieces.reduceOption, none) := by
  induction h with
  | plain text => exact scan_of_plain text
  | @markup _ _ _ piece _ text cut more ih =>
    rw [scan_of_markup text cut, ih]
    cases piece <;> rfl

theorem scan_eq_none_iff {text : String} {tags : List Event} :
    scan text.toList = (tags, none) ↔ Tagged text tags := by
  refine ⟨exists_cutsInto_of_scan, ?_⟩
  rintro ⟨pieces, hpieces, rfl⟩
  exact hpieces.scan

def Event.content? : Event → Option (List Char)
  | .opening content _ => some content
  | .closing _ => none

/-- An opening tag has a name and attributes without a fault. -/
def Legible (content : List Char) : Prop :=
  nameOf content ≠ [] ∧ ∃ attributes, attributesOf content = .ok attributes

theorem exists_elementOf_iff {inherited : Dictionary String} {content : List Char} :
    (∃ e, elementOf inherited content = .ok e) ↔ Legible content := by
  simp only [elementOf_eq_ok_iff, Legible]
  constructor
  · rintro ⟨_, hname, attributes, hattributes, -⟩
    exact ⟨hname, attributes, hattributes⟩
  · rintro ⟨hname, attributes, hattributes⟩
    exact ⟨_, hname, attributes, hattributes, rfl⟩

theorem qualifiedName_foldl_takeAttribute (attributes : List (String × String)) (e : Element) :
    (attributes.foldl takeAttribute e).qualifiedName = e.qualifiedName := by
  induction attributes generalizing e with
  | nil => rfl
  | cons a rest ih =>
    rw [List.foldl_cons, ih, takeAttribute]
    split <;> rfl

theorem qualifiedName_elementOf {inherited : Dictionary String} {content : List Char} {e : Element}
    (h : elementOf inherited content = .ok e) (hcolon : (nameOf content).head? ≠ some ':') :
    e.qualifiedName = .ofList (nameOf content) := by
  obtain ⟨-, attributes, -, rfl⟩ := elementOf_eq_ok_iff.1 h
  rw [qualifiedName_foldl_takeAttribute]
  exact Element.qualifiedName_named hcolon

namespace Bracket

/-- The contents of the opening tags, in the order of the document. -/
def contents (b : Bracket) : List (List Char) := b.events.filterMap Event.content?

def contentsAll (bs : List Bracket) : List (List Char) := (eventsAll bs).filterMap Event.content?

@[simp] theorem contents_single (content : List Char) : (single content).contents = [content] := rfl

@[simp] theorem contents_pair (content : List Char) (inner : List Bracket) :
    (pair content inner).contents = content :: contentsAll inner := by
  simp [contents, contentsAll, events, Event.content?]

@[simp] theorem contentsAll_nil : contentsAll [] = [] := rfl

@[simp] theorem contentsAll_cons (b : Bracket) (rest : List Bracket) :
    contentsAll (b :: rest) = b.contents ++ contentsAll rest := by
  simp [contents, contentsAll, eventsAll]

mutual

/-- The shape that the tags have. -/
def skeleton : Bracket → Skeleton
  | single content => .mk (.ofList (nameOf content)) []
  | pair content inner => .mk (.ofList (nameOf content)) (skeletons inner)

def skeletons : List Bracket → List Skeleton
  | [] => []
  | b :: rest => b.skeleton :: skeletons rest

end

mutual

/-- A bracket can be read when each of its tags can. -/
theorem exists_read_iff (b : Bracket) (inherited : Dictionary String)
    (hcolon : ∀ content ∈ b.contents, (nameOf content).head? ≠ some ':') :
    (∃ e, b.read inherited = .ok e) ↔ ∀ content ∈ b.contents, Legible content := by
  cases b with
  | single content =>
    rw [contents_single, List.forall_mem_singleton]
    exact exists_elementOf_iff
  | pair content inner =>
    rw [contents_pair, List.forall_mem_cons] at hcolon ⊢
    constructor
    · rintro ⟨e, h⟩
      obtain ⟨opened, children, htag, hinside, -, -⟩ := read_pair_eq_ok_iff.1 h
      exact ⟨exists_elementOf_iff.1 ⟨opened, htag⟩,
        (exists_readAll_iff inner opened.namespaces hcolon.2).1 ⟨children, hinside⟩⟩
    · rintro ⟨htag, hinside⟩
      obtain ⟨opened, hopened⟩ : ∃ opened, elementOf inherited content = .ok opened :=
        exists_elementOf_iff.2 htag
      obtain ⟨children, hchildren⟩ :=
        (exists_readAll_iff inner opened.namespaces hcolon.2).2 hinside
      exact ⟨_, read_pair_eq_ok_iff.2
        ⟨opened, children, hopened, hchildren, qualifiedName_elementOf hopened hcolon.1, rfl⟩⟩

theorem exists_readAll_iff (bs : List Bracket) (inherited : Dictionary String)
    (hcolon : ∀ content ∈ contentsAll bs, (nameOf content).head? ≠ some ':') :
    (∃ es, readAll inherited bs = .ok es) ↔ ∀ content ∈ contentsAll bs, Legible content := by
  cases bs with
  | nil => exact ⟨fun _ _ h => (nomatch h), fun _ => ⟨[], rfl⟩⟩
  | cons b rest =>
    rw [contentsAll_cons, List.forall_mem_append] at hcolon ⊢
    rw [← exists_read_iff b inherited hcolon.1, ← exists_readAll_iff rest inherited hcolon.2]
    simp only [readAll_eq_ok_iff, List.forall₂_cons_left_iff]
    constructor
    · rintro ⟨_, e, others, he, hothers, -⟩
      exact ⟨⟨e, he⟩, others, hothers⟩
    · rintro ⟨⟨e, he⟩, others, hothers⟩
      exact ⟨_, e, others, he, hothers, rfl⟩

end

mutual

theorem skeleton_read (b : Bracket) {inherited : Dictionary String} {e : Element}
    (hcolon : ∀ content ∈ b.contents, (nameOf content).head? ≠ some ':')
    (h : b.read inherited = .ok e) : e.skeleton = b.skeleton := by
  cases b with
  | single content =>
    have hname := qualifiedName_elementOf h (hcolon content (List.mem_singleton_self content))
    rw [Element.skeleton_eq, children_elementOf h, hname]
    rfl
  | pair content inner =>
    rw [contents_pair, List.forall_mem_cons] at hcolon
    obtain ⟨opened, children, -, hinside, hname, rfl⟩ := read_pair_eq_ok_iff.1 h
    have hqualified : ({ opened with children } : Element).qualifiedName = opened.qualifiedName :=
      rfl
    rw [Element.skeleton_eq, hqualified, hname, skeletons_readAll inner hcolon.2 hinside]
    rfl

theorem skeletons_readAll (bs : List Bracket) {inherited : Dictionary String} {es : List Element}
    (hcolon : ∀ content ∈ contentsAll bs, (nameOf content).head? ≠ some ':')
    (h : readAll inherited bs = .ok es) : Element.skeletons es = skeletons bs := by
  cases bs with
  | nil =>
    obtain rfl := Except.ok.inj h
    rfl
  | cons b rest =>
    rw [contentsAll_cons, List.forall_mem_append] at hcolon
    obtain ⟨e, others, he, hothers, rfl⟩ :=
      List.forall₂_cons_left_iff.1 (readAll_eq_ok_iff.1 h)
    rw [Element.skeletons, skeleton_read b hcolon.1 he,
      skeletons_readAll rest hcolon.2 (readAll_eq_ok_iff.2 hothers)]
    rfl

end

end Bracket

/-- Where no name starts with a colon, a document is read exactly when all of its markup comes to
its end, its tags are those of one bracket, and each tag that opens an element has a name and
attributes without a fault. The element read has the names, the order and the nesting of the
tags. -/
theorem balanced_documents_read {text : String}
    (hcolon : ∀ tags, Tagged text tags →
      ∀ content ∈ tags.filterMap Event.content?, (nameOf content).head? ≠ some ':') :
    ((∃ root, readDocument text = .ok root) ↔
      ∃ b : Bracket, Tagged text b.events ∧
        ∀ content ∈ b.contents, nameOf content ≠ [] ∧
          ∃ attributes, attributesOf content = .ok attributes) ∧
    ∀ root (b : Bracket), readDocument text = .ok root → Tagged text b.events →
      root.skeleton = b.skeleton := by
  refine ⟨?_, fun root b hroot htags => ?_⟩
  · simp only [readDocument_eq_ok_iff]
    constructor
    · rintro ⟨root, b, hscan, hread⟩
      have htags := scan_eq_none_iff.1 hscan
      exact ⟨b, htags, (b.exists_read_iff .empty (hcolon _ htags)).1 ⟨root, hread⟩⟩
    · rintro ⟨b, htags, hlegible⟩
      obtain ⟨root, hread⟩ := (b.exists_read_iff .empty (hcolon _ htags)).2 hlegible
      exact ⟨root, b, scan_eq_none_iff.2 htags, hread⟩
  · rw [readDocument_of_scan (scan_eq_none_iff.2 htags)] at hroot
    exact b.skeleton_read (hcolon _ htags) hroot

/-- A declaration, a comment and text around and between the tags. -/
def annotated : String := "<?xml version='1.0'?><a>text<!-- <b> --><d x='&lt;'/></a>\n"

theorem annotated_tagged :
    Tagged annotated (Bracket.pair ['a'] [.single "d x='&lt;'".toList]).events :=
  scan_eq_none_iff.1 (by decide +kernel)

theorem annotated_names (tags : List Event) (h : Tagged annotated tags) :
    ∀ content ∈ tags.filterMap Event.content?, (nameOf content).head? ≠ some ':' := by
  have hscan := scan_eq_none_iff.2 h
  rw [scan_eq_none_iff.2 annotated_tagged] at hscan
  rw [← (Prod.mk.inj hscan).1]
  decide +kernel

theorem annotated_read :
    (∀ tags, Tagged annotated tags →
      ∀ content ∈ tags.filterMap Event.content?, (nameOf content).head? ≠ some ':') ∧
    ∃ root, readDocument annotated = .ok root ∧ root.skeleton = .mk "a" [.mk "d" []] := by
  obtain ⟨hread, hshape⟩ := balanced_documents_read annotated_names
  refine ⟨annotated_names, ?_⟩
  obtain ⟨root, hroot⟩ := hread.2 ⟨_, annotated_tagged, by
    intro content hcontent
    simp only [Bracket.contents_pair, Bracket.contentsAll_cons, Bracket.contents_single,
      Bracket.contentsAll_nil, List.append_nil, List.mem_cons, List.not_mem_nil,
      or_false] at hcontent
    rcases hcontent with rfl | rfl
    · exact ⟨by decide, [], by decide +kernel⟩
    · exact ⟨by decide, [("x", "<")], by decide +kernel⟩⟩
  exact ⟨root, hroot, hshape root _ hroot annotated_tagged⟩

/-- A tag without a name is refused, although nothing else is wrong with it. -/
theorem nameless_refused :
    ¬ ∀ text : String,
      (∀ tags, Tagged text tags →
        ∀ content ∈ tags.filterMap Event.content?, (nameOf content).head? ≠ some ':') →
      ((∃ root, readDocument text = .ok root) ↔
        ∃ b : Bracket, Tagged text b.events ∧
          ∀ content ∈ b.contents, ∃ attributes, attributesOf content = .ok attributes) := by
  intro hall
  have hscan : scan "<></>".toList = ((Bracket.pair [] []).events, none) := by decide +kernel
  have hcolon : ∀ tags, Tagged "<></>" tags →
      ∀ content ∈ tags.filterMap Event.content?, (nameOf content).head? ≠ some ':' := by
    intro tags htags
    have hsame := scan_eq_none_iff.2 htags
    rw [hscan] at hsame
    rw [← (Prod.mk.inj hsame).1]
    decide
  obtain ⟨root, hroot⟩ := (hall "<></>" hcolon).2 ⟨_, scan_eq_none_iff.1 hscan, by
    intro content hcontent
    obtain rfl := List.mem_singleton.1 hcontent
    exact ⟨[], by decide +kernel⟩⟩
  rw [readDocument_of_scan hscan] at hroot
  cases hroot

end Markup

end MarkupScene
