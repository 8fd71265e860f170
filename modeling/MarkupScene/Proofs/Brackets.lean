import MarkupScene.Markup.Document
import Mathlib.Data.List.Forall2

/-!
# Brackets

The tags of an element enclose the tags of the elements inside it. A bracket is an element as its
tags, with their content as it is written. Reading a bracket makes an element of it, inside out
and without a stack. The main statement is that the stack of open elements reads a document
exactly when its tags are those of one bracket, and reads what the bracket reads as.
-/
namespace MarkupScene.Markup

open Text

/-- A self-closing tag, or an opening tag with the elements up to the closing tag of its name. -/
inductive Bracket where
  | single (content : List Char)
  | pair (content : List Char) (inner : List Bracket)

namespace Bracket

mutual

/-- The tags in the order of the document. -/
def events : Bracket → List Event
  | single content => [.opening content true]
  | pair content inner =>
    .opening content false :: eventsAll inner ++ [.closing (nameOf content)]

def eventsAll : List Bracket → List Event
  | [] => []
  | b :: rest => b.events ++ eventsAll rest

end

mutual

/-- The element inside the given namespaces. The qualified name of a pair is its name as written. -/
def read (inherited : Dictionary String) : Bracket → Except DocumentFault Element
  | single content => elementOf inherited content
  | pair content inner => do
    let e ← elementOf inherited content
    let children ← readAll e.namespaces inner
    if e.qualifiedName ≠ .ofList (nameOf content) then
      .error (.mismatched e.qualifiedName (.ofList (nameOf content)))
    else return { e with children }

def readAll (inherited : Dictionary String) : List Bracket → Except DocumentFault (List Element)
  | [] => return []
  | b :: rest => do
    let e ← b.read inherited
    let others ← readAll inherited rest
    return e :: others

end

theorem eventsAll_append (bs cs : List Bracket) :
    eventsAll (bs ++ cs) = eventsAll bs ++ eventsAll cs := by
  induction bs with
  | nil => rfl
  | cons b rest ih => rw [List.cons_append, eventsAll, eventsAll, ih, List.append_assoc]

theorem eventsAll_concat (bs : List Bracket) (b : Bracket) :
    eventsAll (bs ++ [b]) = eventsAll bs ++ b.events := by
  rw [eventsAll_append, eventsAll, eventsAll, List.append_nil]

end Bracket

theorem bind_eq_ok_iff {ε α β : Type} {x : Except ε α} {f : α → Except ε β} {b : β} :
    x >>= f = .ok b ↔ ∃ a, x = .ok a ∧ f a = .ok b := by
  cases x with
  | error fault => exact ⟨nofun, fun ⟨_, h, _⟩ => nomatch h⟩
  | ok a =>
    refine ⟨fun h => ⟨a, rfl, h⟩, ?_⟩
    rintro ⟨_, ha, h⟩
    obtain rfl := Except.ok.inj ha
    exact h

theorem children_takeAttribute (e : Element) (a : String × String) :
    (takeAttribute e a).children = e.children := by
  unfold takeAttribute
  split <;> rfl

theorem children_foldl_takeAttribute (attributes : List (String × String)) (e : Element) :
    (attributes.foldl takeAttribute e).children = e.children := by
  induction attributes generalizing e with
  | nil => rfl
  | cons a rest ih => rw [List.foldl_cons, ih, children_takeAttribute]

theorem elementOf_eq_ok_iff {inherited : Dictionary String} {content : List Char} {e : Element} :
    elementOf inherited content = .ok e ↔ nameOf content ≠ [] ∧
      ∃ attributes, attributesOf content = .ok attributes ∧
        e = attributes.foldl takeAttribute
          { Element.named (nameOf content) with namespaces := inherited } := by
  unfold elementOf
  cases hname : nameOf content with
  | nil => exact ⟨nofun, fun h => absurd rfl h.1⟩
  | cons c rest =>
    simp only [List.isEmpty_cons, Bool.false_eq_true, if_false]
    cases attributesOf content with
    | error fault => exact ⟨nofun, fun ⟨_, _, h, _⟩ => nomatch h⟩
    | ok attributes =>
      refine ⟨fun h => ⟨nofun, attributes, rfl, (Except.ok.inj h).symm⟩, ?_⟩
      rintro ⟨-, _, h, rfl⟩
      obtain rfl := Except.ok.inj h
      rfl

theorem children_elementOf {inherited : Dictionary String} {content : List Char} {e : Element}
    (h : elementOf inherited content = .ok e) : e.children = [] := by
  obtain ⟨-, attributes, -, rfl⟩ := elementOf_eq_ok_iff.1 h
  rw [children_foldl_takeAttribute]
  unfold Element.named
  split <;> rfl

namespace Bracket
variable {inherited : Dictionary String}

theorem read_pair_eq_ok_iff {content : List Char} {inner : List Bracket} {e : Element} :
    (pair content inner).read inherited = .ok e ↔
      ∃ opened children, elementOf inherited content = .ok opened ∧
        readAll opened.namespaces inner = .ok children ∧
          opened.qualifiedName = .ofList (nameOf content) ∧ e = { opened with children } := by
  rw [read, bind_eq_ok_iff]
  constructor
  · rintro ⟨opened, hopened, h⟩
    obtain ⟨children, hchildren, h⟩ := bind_eq_ok_iff.1 h
    split at h
    · cases h
    · next hname =>
      exact ⟨opened, children, hopened, hchildren, not_not.1 hname, (Except.ok.inj h).symm⟩
  · rintro ⟨opened, children, hopened, hchildren, hname, rfl⟩
    refine ⟨opened, hopened, bind_eq_ok_iff.2 ⟨children, hchildren, ?_⟩⟩
    rw [if_neg (not_not.2 hname)]
    rfl

theorem readAll_eq_ok_iff {bs : List Bracket} {es : List Element} :
    readAll inherited bs = .ok es ↔
      List.Forall₂ (fun b e => b.read inherited = .ok e) bs es := by
  induction bs generalizing es with
  | nil =>
    rw [List.forall₂_nil_left_iff, readAll]
    exact ⟨fun h => (Except.ok.inj h).symm, fun h => congrArg _ h.symm⟩
  | cons b rest ih =>
    rw [List.forall₂_cons_left_iff, readAll, bind_eq_ok_iff]
    constructor
    · rintro ⟨e, he, h⟩
      obtain ⟨others, hothers, h⟩ := bind_eq_ok_iff.1 h
      exact ⟨e, others, he, ih.1 hothers, (Except.ok.inj h).symm⟩
    · rintro ⟨e, others, he, hothers, rfl⟩
      exact ⟨e, he, bind_eq_ok_iff.2 ⟨others, ih.2 hothers, rfl⟩⟩

end Bracket

/-- An element whose closing tag is still to come, as its tags so far. -/
structure Ajar where
  content : List Char
  inner : List Bracket

def Ajar.eventsAll : List Ajar → List Event
  | [] => []
  | a :: outer => Ajar.eventsAll outer ++ .opening a.content false :: Bracket.eventsAll a.inner

/-- Tags so far and the open elements that they are read as, innermost first. -/
inductive Opens : List Ajar → List OpenElement → Prop where
  | nil : Opens [] []
  | cons {outer : List Ajar} {stack : List OpenElement} {content : List Char} {inner : List Bracket}
      {opened : Element} {children : List Element} (rest : Opens outer stack)
      (tag : elementOf (Progress.scope ⟨stack, none⟩) content = .ok opened)
      (inside : Bracket.readAll opened.namespaces inner = .ok children) :
      Opens (⟨content, inner⟩ :: outer) (⟨nameOf content, { opened with children }⟩ :: stack)

/-- A complete root, when there is one, and the tags that it was read from. -/
inductive Completes : List Event → Option Element → Prop where
  | none : Completes [] none
  | some {b : Bracket} {root : Element} (read : b.read .empty = .ok root) :
      Completes b.events (some root)

/-- The events of a document up to some point, and what has come of them. -/
inductive Reached (consumed : List Event) (p : Progress) : Prop where
  | mk {before : List Event} {ajar : List Ajar} (root : Completes before p.root)
      (opens : Opens ajar p.stack) (events : consumed = before ++ Ajar.eventsAll ajar)

namespace Reached
variable {consumed : List Event} {p p' : Progress}

theorem start : Reached [] {} := ⟨.none, .nil, rfl⟩

/-- An element that is complete adds its tags. -/
theorem close {b : Bracket} {e : Element} (h : Reached consumed p)
    (hread : b.read p.scope = .ok e) (hclose : p.close e = .ok p') :
    Reached (consumed ++ b.events) p' := by
  obtain ⟨stack, root⟩ := p
  obtain ⟨hroot, hopens, rfl⟩ := h
  cases hopens with
  | nil =>
    cases hroot with
    | some => cases hclose
    | none =>
      obtain rfl := Except.ok.inj hclose
      exact ⟨.some hread, .nil, (List.append_nil b.events).symm⟩
  | @cons outer stack content inner opened children hrest htag hinside =>
    obtain rfl := Except.ok.inj hclose
    have hchildren : Bracket.readAll opened.namespaces (inner ++ [b]) = .ok (children ++ [e]) :=
      Bracket.readAll_eq_ok_iff.2 <|
        List.rel_append (Bracket.readAll_eq_ok_iff.1 hinside) (.cons hread .nil)
    have hopens : Opens (⟨content, inner ++ [b]⟩ :: outer)
        (⟨nameOf content, { opened with children := children ++ [e] }⟩ :: stack) :=
      hrest.cons htag hchildren
    refine ⟨hroot, hopens, ?_⟩
    simp only [Ajar.eventsAll, Bracket.eventsAll_concat, List.append_assoc, List.cons_append]

/-- One more event. -/
theorem step {x : Event} (h : Reached consumed p) (hstep : p.step x = .ok p') :
    Reached (consumed ++ [x]) p' := by
  cases x with
  | opening content selfClosing =>
    obtain ⟨e, he, hstep⟩ := bind_eq_ok_iff.1 hstep
    cases selfClosing with
    | true => exact h.close (b := .single content) he hstep
    | false =>
      obtain rfl := Except.ok.inj hstep
      obtain ⟨hroot, hopens, rfl⟩ := h
      -- A tag is read without children, which come one by one.
      have hopened : { e with children := [] } = e := by
        have hchildren := children_elementOf he
        cases e
        cases hchildren
        rfl
      have hadded : Opens (⟨content, []⟩ :: _)
          (⟨nameOf content, { e with children := [] }⟩ :: p.stack) := hopens.cons he rfl
      rw [hopened] at hadded
      exact ⟨hroot, hadded, by simp only [Ajar.eventsAll, Bracket.eventsAll, List.append_assoc]⟩
  | closing name =>
    obtain ⟨stack, root⟩ := p
    obtain ⟨hroot, hopens, rfl⟩ := h
    cases hopens with
    | nil => cases hstep
    | @cons outer stack content inner opened children hrest htag hinside =>
      simp only [Progress.step] at hstep
      split at hstep
      · cases hstep
      · next hwritten =>
        obtain rfl := not_not.1 hwritten
        split at hstep
        · cases hstep
        · next hname =>
          have hread : (Bracket.pair content inner).read (Progress.scope ⟨stack, none⟩) =
              .ok { opened with children } :=
            Bracket.read_pair_eq_ok_iff.2
              ⟨opened, children, htag, hinside, not_not.1 hname, rfl⟩
          have hbefore : Reached _ ⟨stack, root⟩ := ⟨hroot, hrest, rfl⟩
          have hclosed := hbefore.close hread hstep
          simp only [Bracket.events, List.append_assoc, List.cons_append] at hclosed
          simpa only [Ajar.eventsAll, List.append_assoc, List.cons_append] using hclosed

theorem steps {events : List Event} (h : Reached consumed p)
    (hsteps : events.foldlM Progress.step p = .ok p') : Reached (consumed ++ events) p' := by
  induction events generalizing consumed p with
  | nil =>
    obtain rfl := Except.ok.inj hsteps
    rwa [List.append_nil]
  | cons x rest ih =>
    rw [List.foldlM_cons] at hsteps
    obtain ⟨q, hq, hrest⟩ := bind_eq_ok_iff.1 hsteps
    rw [List.append_cons]
    exact ih (h.step hq) hrest

theorem finish {root : Element} (h : Reached consumed p) (hfinish : p.finish = .ok root) :
    ∃ b : Bracket, consumed = b.events ∧ b.read .empty = .ok root := by
  obtain ⟨stack, complete⟩ := p
  obtain ⟨hroot, hopens, rfl⟩ := h
  cases hopens with
  | cons => cases hfinish
  | nil =>
    cases hroot with
    | none => cases hfinish
    | some hread =>
      obtain rfl := Except.ok.inj hfinish
      exact ⟨_, List.append_nil _, hread⟩

end Reached

namespace Bracket

/-- The innermost open element, with its children still to be added to. -/
def holding (parent : OpenElement) (children : List Element) : OpenElement :=
  { parent with
    element := { parent.element with children := parent.element.children ++ children } }

theorem holding_nil (parent : OpenElement) : holding parent [] = parent := by
  obtain ⟨written, element⟩ := parent
  cases element
  simp only [holding, List.append_nil]

theorem holding_append (parent : OpenElement) (es fs : List Element) :
    holding (holding parent es) fs = holding parent (es ++ fs) := by
  simp only [holding, List.append_assoc]

mutual

/-- The stack takes a bracket for what it reads as, and fails where reading it fails. -/
theorem foldlM_events (b : Bracket) (p : Progress) :
    b.events.foldlM Progress.step p = b.read p.scope >>= p.close := by
  cases b with
  | single content =>
    rw [events, List.foldlM_cons, read, Progress.step]
    cases elementOf p.scope content with
    | error fault => rfl
    | ok e =>
      change (p.close e >>= pure) = p.close e
      exact bind_pure _
  | pair content inner =>
    rw [events, List.cons_append, List.foldlM_cons, read, Progress.step]
    cases hopened : elementOf p.scope content with
    | error fault => rfl
    | ok opened =>
      have hchildless := children_elementOf hopened
      change (eventsAll inner ++ [Event.closing (nameOf content)]).foldlM Progress.step
        ⟨⟨nameOf content, opened⟩ :: p.stack, p.root⟩ =
          (readAll opened.namespaces inner >>= fun children => _) >>= p.close
      rw [List.foldlM_append, foldlM_eventsAll inner ⟨nameOf content, opened⟩ p.stack p.root]
      cases readAll opened.namespaces inner with
      | error fault => rfl
      | ok children =>
        have hheld : holding ⟨nameOf content, opened⟩ children =
            ⟨nameOf content, { opened with children }⟩ := by
          simp only [holding, hchildless, List.nil_append]
        change ([Event.closing (nameOf content)]).foldlM Progress.step
          ⟨holding ⟨nameOf content, opened⟩ children :: p.stack, p.root⟩ = _
        rw [hheld, List.foldlM_cons]
        have hqualified : ({ opened with children } : Element).qualifiedName =
            opened.qualifiedName := rfl
        simp only [Progress.step, ne_eq, not_true_eq_false, if_false, hqualified]
        by_cases hname : opened.qualifiedName = .ofList (nameOf content)
        · simp only [hname, not_true_eq_false, if_false]
          exact bind_pure _
        · simp only [hname, not_false_eq_true, if_true]
          rfl

theorem foldlM_eventsAll (bs : List Bracket) (parent : OpenElement) (outer : List OpenElement)
    (root : Option Element) :
    (eventsAll bs).foldlM Progress.step ⟨parent :: outer, root⟩ =
      readAll parent.element.namespaces bs >>= fun children =>
        .ok ⟨holding parent children :: outer, root⟩ := by
  cases bs with
  | nil =>
    change Except.ok _ = Except.ok (Progress.mk (holding parent [] :: outer) root)
    rw [holding_nil]
  | cons b rest =>
    rw [eventsAll, List.foldlM_append, foldlM_events b, readAll]
    change (b.read parent.element.namespaces >>= _) >>= _ = _
    cases b.read parent.element.namespaces with
    | error fault => rfl
    | ok e =>
      change (eventsAll rest).foldlM Progress.step ⟨holding parent [e] :: outer, root⟩ =
        (readAll parent.element.namespaces rest >>= fun others => .ok (e :: others)) >>= _
      rw [foldlM_eventsAll rest (holding parent [e]) outer root]
      change (readAll parent.element.namespaces rest >>= _) = _
      cases readAll parent.element.namespaces rest with
      | error fault => rfl
      | ok others =>
        change Except.ok _ = Except.ok (Progress.mk (holding parent (e :: others) :: outer) root)
        rw [holding_append, List.singleton_append]

end

end Bracket

theorem readDocument_of_scan {text : String} {b : Bracket}
    (h : scan text.toList = (b.events, none)) : readDocument text = b.read .empty := by
  unfold readDocument
  rw [h]
  dsimp only
  rw [b.foldlM_events]
  change (b.read .empty >>= Progress.close {}) >>= Progress.finish = _
  cases b.read .empty with
  | error fault => rfl
  | ok root => rfl

/-- A document is read exactly when its tags are those of one bracket that can be read. -/
theorem readDocument_eq_ok_iff {text : String} {root : Element} :
    readDocument text = .ok root ↔
      ∃ b : Bracket, scan text.toList = (b.events, none) ∧ b.read .empty = .ok root := by
  constructor
  · intro h
    unfold readDocument at h
    obtain ⟨p, hp, h⟩ := bind_eq_ok_iff.1 h
    cases hfault : (scan text.toList).2 with
    | some fault =>
      rw [hfault] at h
      cases h
    | none =>
      rw [hfault] at h
      obtain ⟨b, hevents, hread⟩ := (Reached.start.steps hp).finish h
      refine ⟨b, ?_, hread⟩
      rw [← hevents, ← hfault, List.nil_append]
  · rintro ⟨b, hscan, hread⟩
    rw [readDocument_of_scan hscan, hread]

end MarkupScene.Markup
