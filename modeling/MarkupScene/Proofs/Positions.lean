import MarkupScene.Proofs.TreeInvariants
import MarkupScene.Proofs.Viewports

/-!
# Positions

Layout puts a node at its position, and nothing looks at positions after that. So an importer makes
the same of a tree whose nodes are somewhere else, with each node still where it was put. The main
statement is that the built-in importers commute with every change of positions; that they leave the
positions themselves alone follows from it.
-/
namespace MarkupScene

open Numeric

variable {ω : Type}

namespace Node

mutual

/-- The tree with each node at a position that depends on the way to it and its old position. -/
def reposition (g : List Nat → Point → Point) : Node → Node
  | ⟨body, children⟩ => ⟨{ body with position := g [] body.position }, repositionAll g 0 children⟩

/-- The same for children of which the first has the given index. -/
def repositionAll (g : List Nat → Point → Point) (index : Nat) : List Node → List Node
  | [] => []
  | c :: rest =>
    c.reposition (fun way => g (index :: way)) :: repositionAll g (index + 1) rest

end

variable {g : List Nat → Point → Point} {n m : Node} {way : List Nat}

theorem repositionAll_eq_mapIdx (g : List Nat → Point → Point) (index : Nat)
    (children : List Node) : repositionAll g index children =
      children.mapIdx fun i c => c.reposition fun way => g ((index + i) :: way) := by
  induction children generalizing index with
  | nil => rfl
  | cons c rest ih =>
    rw [repositionAll, List.mapIdx_cons, ih]
    simp only [Nat.add_zero, Nat.add_assoc, Nat.add_comm 1]

theorem reposition_mk (g : List Nat → Point → Point) (body : Body) (children : List Node) :
    reposition g ⟨body, children⟩ =
      ⟨{ body with position := g [] body.position },
        children.mapIdx fun i c => c.reposition fun way => g (i :: way)⟩ := by
  rw [reposition, repositionAll_eq_mapIdx]
  simp only [Nat.zero_add]

@[simp] theorem position_reposition (g : List Nat → Point → Point) (n : Node) :
    (n.reposition g).position = g [] n.position := by
  cases n
  rw [reposition_mk]

@[simp] theorem name_reposition (g : List Nat → Point → Point) (n : Node) :
    (n.reposition g).name = n.name := by
  cases n
  rw [reposition_mk]

@[simp] theorem size_reposition (g : List Nat → Point → Point) (n : Node) :
    (n.reposition g).size = n.size := by
  cases n
  rw [reposition_mk]

@[simp] theorem behaviors_reposition (g : List Nat → Point → Point) (n : Node) :
    (n.reposition g).behaviors = n.behaviors := by
  cases n
  rw [reposition_mk]

@[simp] theorem children_reposition (g : List Nat → Point → Point) (n : Node) :
    (n.reposition g).children =
      n.children.mapIdx fun i c => c.reposition fun way => g (i :: way) := by
  cases n
  rw [reposition_mk]

@[simp] theorem sprite?_reposition (g : List Nat → Point → Point) (n : Node) :
    (n.reposition g).sprite? = n.sprite? := by simp [sprite?]

@[simp] theorem label?_reposition (g : List Nat → Point → Point) (n : Node) :
    (n.reposition g).label? = n.label? := by simp [label?]

@[simp] theorem editBox?_reposition (g : List Nat → Point → Point) (n : Node) :
    (n.reposition g).editBox? = n.editBox? := by simp [editBox?]

mutual

@[simp] theorem bare_reposition (g : List Nat → Point → Point) :
    (n : Node) → (n.reposition g).bare = n.bare
  | ⟨body, children⟩ => by rw [reposition, bare, bare, bareAll_repositionAll g 0 children]

theorem bareAll_repositionAll (g : List Nat → Point → Point) (index : Nat) :
    (children : List Node) → bareAll (repositionAll g index children) = bareAll children
  | [] => rfl
  | c :: rest => by
    rw [repositionAll, bareAll, bareAll, bare_reposition _ c, bareAll_repositionAll g _ rest]

end

@[simp] theorem outline_reposition (g : List Nat → Point → Point) (n : Node) :
    (n.reposition g).outline = n.outline :=
  outline_of_bare (bare_reposition g n)

@[simp] theorem find?_reposition (g : List Nat → Point → Point) (n : Node) (t : Target) :
    (n.reposition g).find? t.test = n.find? t.test :=
  find?_congr t.test_bare (outline_reposition g n)

@[simp] theorem findNamed?_reposition (g : List Nat → Point → Point) (n : Node) (name : String) :
    (n.reposition g).findNamed? name = n.findNamed? name :=
  find?_reposition g n (.named name)

@[simp] theorem namePath_reposition (g : List Nat → Point → Point) (n : Node) :
    (n.reposition g).namePath = n.namePath :=
  funext (namePath_congr (outline_reposition g n))

theorem descendant?_reposition (g : List Nat → Point → Point) (n : Node) (way : List Nat) :
    (n.reposition g).descendant? way =
      (n.descendant? way).map fun d => d.reposition fun below => g (way ++ below) := by
  induction way generalizing n g with
  | nil => rfl
  | cons i way ih =>
    rw [descendant?_cons, descendant?_cons, children_reposition, List.getElem?_mapIdx]
    cases n.children[i]? with
    | none => rfl
    | some c => exact ih _ c

theorem modifyAt_reposition {f : Node → Node} (hf : ∀ g c, f (reposition g c) = (f c).reposition g)
    (g : List Nat → Point → Point) (n : Node) (way : List Nat) :
    (n.reposition g).modifyAt f way = (n.modifyAt f way).reposition g := by
  induction way generalizing n g with
  | nil => exact hf g n
  | cons i way ih =>
    rw [modifyAt, modifyAt, children_reposition, List.getElem?_mapIdx]
    cases n.children[i]? with
    | none => rfl
    | some c =>
      dsimp only [Option.map_some]
      rw [ih, reposition_mk, List.mapIdx_set]
      cases n
      rw [reposition_mk]

theorem modifyFound_reposition {f : Node → Node}
    (hf : ∀ g c, f (reposition g c) = (f c).reposition g) (g : List Nat → Point → Point) (n : Node)
    (found : Option (List Nat)) :
    (match found with
      | some way => (n.reposition g).modifyAt f way
      | none => n.reposition g) =
        (match found with
          | some way => n.modifyAt f way
          | none => n).reposition g := by
  cases found with
  | none => rfl
  | some way => exact modifyAt_reposition hf g n way

theorem attach_reposition (g : List Nat → Point → Point) (n : Node) (b : Behavior) :
    (n.reposition g).attach b = (n.attach b).map (reposition g) := by
  have hbehaviors : ∀ bs : List Behavior, { n.reposition g with behaviors := bs } =
      reposition g { n with behaviors := bs } := by
    intro bs
    cases n
    rw [reposition_mk, reposition_mk]
  unfold attach
  rw [behaviors_reposition]
  simp only [hbehaviors]
  split
  · rfl
  · split
    · split <;> rfl
    · rfl

mutual

theorem reposition_eq_self : (n : Node) → (g : List Nat → Point → Point) →
    (∀ way d, n.descendant? way = some d → g way d.position = d.position) → n.reposition g = n
  | ⟨body, children⟩, g, h => by
    have hroot : g [] body.position = body.position := h [] _ rfl
    have hchildren : repositionAll g 0 children = children := by
      apply repositionAll_eq_self children g 0
      intro i c hc way d hd
      rw [Nat.zero_add]
      apply h (i :: way) d
      rw [descendant?_cons, hc]
      exact hd
    rw [reposition, hchildren, hroot]

theorem repositionAll_eq_self : (children : List Node) → (g : List Nat → Point → Point) →
    (index : Nat) →
    (∀ i c, children[i]? = some c → ∀ way d, c.descendant? way = some d →
      g ((index + i) :: way) d.position = d.position) → repositionAll g index children = children
  | [], _, _, _ => rfl
  | c :: rest, g, index, h => by
    have hfirst : c.reposition (fun way => g (index :: way)) = c :=
      reposition_eq_self c _ (h 0 c rfl)
    have hothers : repositionAll g (index + 1) rest = rest := by
      apply repositionAll_eq_self rest g
      intro i d hd
      rw [Nat.add_assoc, Nat.add_comm 1]
      exact h (i + 1) d hd
    rw [repositionAll, hfirst, hothers]

end

end Node

/-- An importer that makes the same of nodes wherever they are. -/
def Importer.Indifferent (i : Importer ω) : Prop :=
  ∀ scope e n g, i scope e (Node.reposition g n) = Node.reposition g <$> i scope e n

namespace ImportScope

theorem attach_reposition (scope : ImportScope ω) (g : List Nat → Point → Point) (n : Node)
    (b : Behavior) : scope.attach (n.reposition g) b = Node.reposition g <$> scope.attach n b := by
  unfold attach
  rw [Node.attach_reposition]
  cases n.attach b with
  | ok made => rfl
  | error conflict =>
    dsimp only [Except.map]
    rw [Node.name_reposition]
    rfl

theorem attach_eq_map {scope : ImportScope ω} {g : List Nat → Point → Point} {n m : Node}
    {b b' : Behavior} (hm : m = n.reposition g) (hb : b' = b) :
    scope.attach m b' = Node.reposition g <$> scope.attach n b := by
  rw [hm, hb, attach_reposition]

end ImportScope

namespace Widget

open ImportScope

theorem mapSprite_reposition (f : Sprite → Sprite) (g : List Nat → Point → Point) (n : Node) :
    (n.reposition g).mapSprite f = (n.mapSprite f).reposition g := by
  cases n
  simp only [Node.mapSprite, Node.reposition_mk]

theorem mapLabel_reposition (f : Label → Label) (g : List Nat → Point → Point) (n : Node) :
    (n.reposition g).mapLabel f = (n.mapLabel f).reposition g := by
  cases n
  simp only [Node.mapLabel, Node.reposition_mk]

theorem image_indifferent : (image : Importer ω).Indifferent := by
  intro scope e n g
  have hsprite : sourcedSprite scope e (n.reposition g) = sourcedSprite scope e n := by
    simp only [sourcedSprite, Node.sprite?_reposition]
  have hsized : ∀ size : Size, { n.reposition g with size } =
      Node.reposition g { n with size } := by
    intro size
    cases n
    rw [Node.reposition_mk, Node.reposition_mk]
  unfold image
  simp only [hsprite, hsized, Node.size_reposition, map_bind, scope.attach_reposition]
  refine bind_congr fun sprite => ?_
  cases e.declaresSize with
  | true => simp
  | false => simp

theorem label_indifferent : (label : Importer ω).Indifferent := by
  intro scope e n g
  simp only [label, labelOf, Node.label?_reposition, scope.attach_reposition]

theorem bitmapLabel_indifferent : (bitmapLabel : Importer ω).Indifferent := by
  intro scope e n g
  unfold bitmapLabel
  simp only [labelOf, Node.label?_reposition, map_bind]
  refine bind_congr fun font => ?_
  cases font with
  | none => exact scope.attach_reposition g n _
  | some font => simp only [map_bind, scope.attach_reposition]

theorem scrollBar_indifferent (direction : Axis) :
    (scrollBar direction : Importer ω).Indifferent := by
  intro scope e n g
  have hstretched := Node.modifyFound_reposition (f := stretchSprite) (mapSprite_reposition _) g n
    (n.findNamed? "thumb")
  have hpaths := (congrArg Node.namePath hstretched).trans (Node.namePath_reposition g _)
  unfold scrollBar
  rw [Node.findNamed?_reposition]
  apply attach_eq_map hstretched
  exact congrArg (fun paths : List Nat → String => Behavior.scrollBar {
    direction
    handle := (n.findNamed? "thumb").map paths
    autoHide := e.flagOr "autoVisibility" true }) hpaths

theorem viewport?_reposition (g : List Nat → Point → Point) (n : Node) :
    viewport? (n.reposition g) = viewport? n := by
  have hcontainer : (n.reposition g).find? isContainer = n.find? isContainer :=
    Node.find?_reposition g n .container
  unfold viewport?
  rw [Node.findNamed?_reposition, hcontainer]

theorem barPath?_reposition (g : List Nat → Point → Point) (n : Node) :
    barPath? (n.reposition g) = barPath? n := by
  funext scrolls name
  simp only [barPath?, Node.findNamed?_reposition, Node.namePath_reposition]

theorem scroller_indifferent : (scroller : Importer ω).Indifferent := by
  intro scope e n g
  have hfilled := Node.modifyFound_reposition
    (f := fun c => { c with size := fillSize n.size c.size })
    (fun g c => by cases c; simp only [Node.reposition_mk]) g n (viewport? n)
  unfold scroller
  simp only [viewport?_reposition, barPath?_reposition, Node.namePath_reposition,
    Node.size_reposition, map_bind]
  refine (congrArg (· >>= _) (attach_eq_map hfilled rfl)).trans ?_
  rw [bind_map_left]
  exact bind_congr fun attached => scope.attach_reposition g attached (.mask {})

theorem relabel_reposition (f : Label → Label) {g : List Nat → Point → Point} {n m : Node}
    (h : m = n.reposition g) :
    (match m.findNamed? "labelDisplay" with
      | some way => m.modifyAt (Node.mapLabel f) way
      | none => m) =
        (match n.findNamed? "labelDisplay" with
          | some way => n.modifyAt (Node.mapLabel f) way
          | none => n).reposition g := by
  rw [h, Node.findNamed?_reposition]
  exact Node.modifyFound_reposition (mapLabel_reposition f) g n _

theorem progressBar_indifferent : (progressBar : Importer ω).Indifferent := by
  intro scope e n g
  have hmeasured : (((n.findNamed? "thumb").bind (n.reposition g).descendant?).getD
      (n.reposition g)).size = (((n.findNamed? "thumb").bind n.descendant?).getD n).size := by
    cases n.findNamed? "thumb" with
    | none => simp
    | some way =>
      rw [Option.bind_some, Option.bind_some, Node.descendant?_reposition]
      cases n.descendant? way with
      | none => simp
      | some d => simp
  have hfilled := fun fill => Node.modifyFound_reposition (f := fillSprite fill)
    (mapSprite_reposition _) g n (n.findNamed? "thumb")
  unfold progressBar
  dsimp only
  rw [Node.findNamed?_reposition, hmeasured, Node.namePath_reposition]
  exact attach_eq_map (relabel_reposition _ (hfilled _)) rfl

theorem putAside_reposition (g : List Nat → Point → Point) (n : Node) (isTemplate : Bool) :
    { n.reposition g with children := putAside isTemplate (n.reposition g).children } =
      Node.reposition g { n with children := putAside isTemplate n.children } := by
  obtain ⟨body, children⟩ := n
  rw [Node.reposition_mk, Node.reposition_mk]
  cases isTemplate with
  | false => rfl
  | true =>
    have hhidden : ∀ (g : List Nat → Point → Point) (c : Node),
        { c.reposition g with active := false } = Node.reposition g { c with active := false } := by
      intro g c
      cases c
      rw [Node.reposition_mk, Node.reposition_mk]
    refine congrArg (Node.mk _) (List.ext_getElem? fun i => ?_)
    simp only [putAside, if_true, List.getElem?_map, List.getElem?_mapIdx]
    cases children[i]? with
    | none => rfl
    | some c => exact congrArg some (hhidden _ c)

theorem namedDescendant?_reposition (g : List Nat → Point → Point) (n : Node) (name : String) :
    ∃ g', namedDescendant? (n.reposition g) name =
      (namedDescendant? n name).map (Node.reposition g') := by
  unfold namedDescendant?
  rw [Node.findNamed?_reposition]
  cases n.findNamed? name with
  | none => exact ⟨g, rfl⟩
  | some way => exact ⟨_, Node.descendant?_reposition g n way⟩

theorem editBoxOf_reposition (e : Element) (g : List Nat → Point → Point) (n : Node) :
    editBoxOf e (n.reposition g) = editBoxOf e n := by
  have hlabel : ∀ name, (namedDescendant? (n.reposition g) name).bind (·.label?) =
      (namedDescendant? n name).bind (·.label?) := by
    intro name
    obtain ⟨g', h⟩ := namedDescendant?_reposition g n name
    rw [h]
    cases namedDescendant? n name with
    | none => rfl
    | some d => exact Node.label?_reposition g' d
  have hsprite : ∀ name, (namedDescendant? (n.reposition g) name).bind (·.sprite?) =
      (namedDescendant? n name).bind (·.sprite?) := by
    intro name
    obtain ⟨g', h⟩ := namedDescendant?_reposition g n name
    rw [h]
    cases namedDescendant? n name with
    | none => rfl
    | some d => exact Node.sprite?_reposition g' d
  simp only [editBoxOf, takePrompt, takeText, takeBackground, hlabel, hsprite,
    Node.editBox?_reposition]

theorem textInput_indifferent : (textInput : Importer ω).Indifferent :=
  fun scope e n g =>
    attach_eq_map (putAside_reposition g n scope.isTemplate)
      (congrArg Behavior.editBox (editBoxOf_reposition e g n))

end Widget

theorem Registry.OnlyBuiltIn.indifferent {r : Registry ω} (hr : r.OnlyBuiltIn) {w : String}
    {i : Importer ω} (h : r.importer? w = some i) : i.Indifferent := by
  obtain ⟨entry, hentry, rfl⟩ := hr w i h
  exact builtIn_cases Widget.image_indifferent Widget.label_indifferent
    Widget.bitmapLabel_indifferent Widget.scrollBar_indifferent Widget.scroller_indifferent
    Widget.progressBar_indifferent Widget.textInput_indifferent (fun _ _ _ _ => rfl) hentry

/-- A point other than a given one. -/
def Point.other (p : Point) : Point := if p = {} then topLeft else {}

theorem Point.other_ne (p : Point) : p.other ≠ p := by
  unfold other
  split
  · next h =>
    rw [h]
    decide +kernel
  · next h => exact Ne.symm h

/-- Each node of the second tree is where the node at the same way is in the first. -/
def Node.Undisturbed (n m : Node) : Prop :=
  ∀ way d, m.descendant? way = some d →
    ∃ before, n.descendant? way = some before ∧ d.position = before.position

/-- An importer that does not look at positions leaves the nodes of a tree where they are. For it
makes the same of the tree when each node is put where it is and everything else is put somewhere
else. -/
theorem Importer.Indifferent.undisturbed {i : Importer ω} (hi : i.Indifferent)
    (scope : ImportScope ω) (e : Element) (n : Node) (around : Surroundings ω) :
    n.Undisturbed (i scope e n around).1 := by
  intro way d hd
  let g : List Nat → Point → Point := fun way p =>
    (n.descendant? way).elim p.other fun before => before.position
  have hself : n.reposition g = n := by
    apply Node.reposition_eq_self
    intro way before hbefore
    simp only [g, hbefore, Option.elim_some]
  have hmade : (i scope e n around).1 = (i scope e n around).1.reposition g := by
    have hsame := congrFun (hi scope e n g) around
    rw [hself] at hsame
    exact congrArg Prod.fst hsame
  have hposition : g way d.position = d.position := by
    have hplaced := hd
    rw [hmade, Node.descendant?_reposition, hd] at hplaced
    simpa using congrArg (fun n : Node => n.position) (Option.some.inj hplaced)
  cases hbefore : n.descendant? way with
  | some before =>
    simp only [g, hbefore, Option.elim_some] at hposition
    exact ⟨before, rfl, hposition.symm⟩
  | none =>
    simp only [g, hbefore, Option.elim_none] at hposition
    exact absurd hposition d.position.other_ne

namespace Node.Undisturbed
variable {n m k c : Node}

theorem refl (n : Node) : n.Undisturbed n := fun _ d hd => ⟨d, hd, rfl⟩

theorem trans (hnm : n.Undisturbed m) (hmk : m.Undisturbed k) : n.Undisturbed k := by
  intro way d hd
  obtain ⟨d', hd', hsame⟩ := hmk way d hd
  obtain ⟨d'', hd'', hsame'⟩ := hnm way d' hd'
  exact ⟨d'', hd'', hsame.trans hsame'⟩

theorem position (h : n.Undisturbed m) : m.position = n.position := by
  obtain ⟨before, hbefore, hsame⟩ := h [] m rfl
  obtain rfl := Option.some.inj hbefore
  exact hsame

theorem child (h : n.Undisturbed m) {i : Nat} (hc : m.children[i]? = some c) :
    ∃ before, n.children[i]? = some before ∧ before.Undisturbed c := by
  have hm : ∀ way, m.descendant? (i :: way) = c.descendant? way := by
    intro way
    rw [descendant?_cons, hc, Option.bind_some]
  have hbelow : ∀ way d, c.descendant? way = some d → ∃ before,
      (n.children[i]?.bind fun c => c.descendant? way) = some before ∧
        d.position = before.position := by
    intro way d hd
    rw [← descendant?_cons]
    exact h (i :: way) d ((hm way).trans hd)
  cases hn : n.children[i]? with
  | none =>
    obtain ⟨before, hbefore, -⟩ := hbelow [] c rfl
    rw [hn] at hbefore
    cases hbefore
  | some before =>
    refine ⟨before, rfl, fun way d hd => ?_⟩
    obtain ⟨d', hd', hsame⟩ := hbelow way d hd
    rw [hn] at hd'
    exact ⟨d', hd', hsame⟩

theorem length_le (h : n.Undisturbed m) : m.children.length ≤ n.children.length := by
  apply Nat.le_of_not_lt
  intro hlt
  obtain ⟨before, hbefore, -⟩ := h.child (List.getElem?_eq_getElem hlt)
  rw [List.getElem?_eq_none (Nat.le_refl _)] at hbefore
  cases hbefore

end Node.Undisturbed

namespace Setting
variable {setting : Setting ω} {begins : Element → Option String → Node → Prop} {source : Path}
  {e : Element} {override : Option String} {parent : Option Size} {n m : Node}

theorem importNode_undisturbed (hregistry : setting.registry.OnlyBuiltIn) {widget : Option String}
    {s t : Session ω}
    (hmade : (setting.importNode source e override widget n).run s = (.ok m, t)) :
    n.Undisturbed m := by
  apply importNode_induction hmade
  · exact .refl n
  · exact fun w i scope around _ hi => (hregistry.indifferent hi).undisturbed scope e n around

/-- The height of a node that is built is what layout makes of its element, given the height that its
parent has when it is laid out, or none. Its children are copied from the skin that it started as, and
stay where they are there, or are built from elements in a parent of the size that it has. -/
inductive Placed (setting : Setting ω) (begins : Element → Option String → Node → Prop) :
    Element → Option String → Option Size → Node → Prop where
  | node {e : Element} {override : Option String} {parent : Option Size} {fresh n : Node}
      (start : begins e override fresh)
      (height : n.position.y =
        match setting.options.yAxis with
        | .anchorOffset => e.singleOr "anchorOffsetY" 0 - e.singleOr "y" 0
        | .parentFlip =>
          ((parent.getD {}).height - e.singleOr "y" 0) + e.singleOr "anchorOffsetY" 0)
      (length : n.children.length ≤
        fresh.children.length + (setting.accepted e override).length)
      (copied : ∀ (i : Nat) (c d : Node), n.children[i]? = some c →
        fresh.children[i]? = some d → d.Undisturbed c)
      (built : ∀ (i : Nat) (c : Node) (k : Element), n.children[fresh.children.length + i]? = some c →
        (setting.accepted e override)[i]? = some k →
          Placed setting begins k none (some (setting.innerSize e parent fresh)) c) :
      Placed setting begins e override parent n

theorem Placed.undisturbed (hn : setting.Placed begins e override parent n)
    (h : n.Undisturbed m) : setting.Placed begins e override parent m := by
  induction hn generalizing m with
  | node start height length copied _ ih =>
    refine .node start (h.position ▸ height) (Nat.le_trans h.length_le length) ?_ ?_
    · intro i c d hc hd
      obtain ⟨before, hbefore, hkept⟩ := h.child hc
      exact (copied i before d hbefore hd).trans hkept
    · intro i c k hc hk
      obtain ⟨before, hbefore, hkept⟩ := h.child hc
      exact ih i before k hbefore hk hkept

/-- All nodes of a grown tree are placed. -/
theorem Grown.placed (hregistry : setting.registry.OnlyBuiltIn)
    (hn : setting.Grown begins source e override parent n) :
    setting.Placed begins e override parent n := by
  induction hn with
  | @node e override parent fresh made kids s t hstart hlength _ himported ih =>
    have hchildren : (setting.assembled e override parent fresh kids).children =
        fresh.children ++ kids := rfl
    have hassembled : setting.Placed begins e override parent
        (setting.assembled e override parent fresh kids) := by
      refine .node hstart ?_ ?_ ?_ ?_
      · change setting.options.yAxis.place _ _ _ = _
        cases setting.options.yAxis with
        | anchorOffset => rfl
        | parentFlip => rfl
      · simp [hchildren, hlength]
      · intro i c d hc hd
        rw [hchildren, List.getElem?_append_left (List.getElem?_eq_some_iff.1 hd).1, hd] at hc
        obtain rfl := Option.some.inj hc
        exact .refl d
      · intro i c k hc hk
        rw [hchildren, List.getElem?_append_right (by omega), Nat.add_sub_cancel_left] at hc
        obtain ⟨hi, rfl⟩ := List.getElem?_eq_some_iff.1 hc
        obtain ⟨hi', rfl⟩ := List.getElem?_eq_some_iff.1 hk
        exact ih _ _ (mem_zip_of_lt hi' hi)
    exact hassembled.undisturbed (importNode_undisturbed hregistry himported)

end Setting

end MarkupScene
