import MarkupScene.Proofs.ImportedBodies
import MarkupScene.Proofs.Spellings

/-!
# Layouts

A copy of a skin is laid out on top of the layout that the skin's root has had. Of the earlier
layout only the sides are left that the new one does not declare: two nodes are laid out alike just
when they agree in what layout leaves alone and in these sides. That layout can be repeated without
a change follows from this.
-/
namespace MarkupScene

open Numeric

/-- What layout gives a node besides its size. -/
structure Layout where
  widthPercent : Option Single
  heightPercent : Option Single
  anchor : Point
  position : Point
  opacity : UInt8
  scaleX : Single
  scaleY : Single
  rotation : Single
  active : Bool
  constraint : Option Constraint

def Placement.length? (p : Placement) : Axis → Option Length
  | .horizontal => p.width
  | .vertical => p.height

/-- The side of a node that was not copied: what is declared, or zero. -/
def Placement.side (p : Placement) (parent : Option Size) (axis : Axis) : Single :=
  ((p.length? axis).map (Length.resolve ((parent.getD {}).along axis))).getD 0

namespace Node

variable {n m : Node} {p : Placement} {axis : Axis}

def layout (n : Node) : Layout where
  widthPercent := n.widthPercent
  heightPercent := n.heightPercent
  anchor := n.anchor
  position := n.position
  opacity := n.opacity
  scaleX := n.scaleX
  scaleY := n.scaleY
  rotation := n.rotation
  active := n.active
  constraint := n.constraint

/-- The nodes agree in everything that layout leaves alone. -/
structure SameContents (n m : Node) : Prop where
  name : m.name = n.name
  widget : m.widget = n.widget
  skin : m.skin = n.skin
  behaviors : m.behaviors = n.behaviors
  children : m.children = n.children

/-- The node was copied from a skin and no length is declared for the side. -/
def Keeps (n : Node) (p : Placement) (axis : Axis) : Prop :=
  p.length? axis = none ∧ n.isSkinInstance = true

theorem SameContents.symm (h : n.SameContents m) : m.SameContents n :=
  ⟨h.name.symm, h.widget.symm, h.skin.symm, h.behaviors.symm, h.children.symm⟩

theorem SameContents.trans {k : Node} (h : n.SameContents m) (h' : m.SameContents k) :
    n.SameContents k :=
  ⟨h'.name.trans h.name, h'.widget.trans h.widget, h'.skin.trans h.skin,
    h'.behaviors.trans h.behaviors, h'.children.trans h.children⟩

theorem SameContents.keeps_iff (h : n.SameContents m) : m.Keeps p axis ↔ n.Keeps p axis := by
  rw [Keeps, Keeps, isSkinInstance, isSkinInstance, h.skin]

theorem SameContents.eq (h : n.SameContents m)
    (hsize : ∀ axis, m.size.along axis = n.size.along axis) (hlayout : m.layout = n.layout) :
    m = n := by
  obtain ⟨hname, hwidget, hskin, hbehaviors, hchildren⟩ := h
  have hwidth : m.size.width = n.size.width := hsize .horizontal
  have hheight : m.size.height = n.size.height := hsize .vertical
  rcases n with ⟨⟨_, _, ⟨_, _⟩, _, _, _, _, _, _, _, _, _, _, _, _⟩, _⟩
  rcases m with ⟨⟨_, _, ⟨_, _⟩, _, _, _, _, _, _, _, _, _, _, _, _⟩, _⟩
  simp_all [layout]

theorem sameContents_arrange (n : Node) (yAxis : YAxis) (p : Placement) (parent : Option Size) :
    n.SameContents (n.arrange yAxis p parent) := ⟨rfl, rfl, rfl, rfl, rfl⟩

theorem layout_arrange (n m : Node) (yAxis : YAxis) (p : Placement) (parent : Option Size) :
    (m.arrange yAxis p parent).layout = (n.arrange yAxis p parent).layout := rfl

theorem dimension_along (n : Node) (yAxis : YAxis) (p : Placement) (parent : Option Size)
    (axis : Axis) : (n.arrange yAxis p parent).size.along axis =
      dimension (p.length? axis) ((parent.getD {}).along axis) n.isSkinInstance
        (n.size.along axis) := by
  cases axis with
  | horizontal => rfl
  | vertical => rfl

theorem along_arrange_of_keeps (h : n.Keeps p axis) (yAxis : YAxis) (parent : Option Size) :
    (n.arrange yAxis p parent).size.along axis = n.size.along axis := by
  rw [dimension_along, h.1, h.2]
  rfl

theorem along_arrange_of_not_keeps (h : ¬n.Keeps p axis) (yAxis : YAxis) (parent : Option Size) :
    (n.arrange yAxis p parent).size.along axis = p.side parent axis := by
  rw [dimension_along, Placement.side]
  cases hlength : p.length? axis with
  | some length => rfl
  | none =>
    have hskin : n.isSkinInstance = false := Bool.eq_false_iff.2 fun hskin => h ⟨hlength, hskin⟩
    rw [hskin]
    rfl

/-- Two nodes are laid out alike when they agree in their contents and in the sides they keep. -/
theorem arrange_eq_arrange_iff (n m : Node) (yAxis : YAxis) (p : Placement)
    (parent : Option Size) :
    m.arrange yAxis p parent = n.arrange yAxis p parent ↔
      n.SameContents m ∧ ∀ axis, n.Keeps p axis → m.size.along axis = n.size.along axis := by
  constructor
  · intro heq
    have hcontents : n.SameContents m :=
      (n.sameContents_arrange yAxis p parent).trans
        (heq ▸ (m.sameContents_arrange yAxis p parent).symm)
    refine ⟨hcontents, fun axis hkeeps => ?_⟩
    rw [← along_arrange_of_keeps (hcontents.keeps_iff.2 hkeeps) yAxis parent, heq,
      along_arrange_of_keeps hkeeps]
  · rintro ⟨hcontents, hsides⟩
    have hlaid : (n.arrange yAxis p parent).SameContents (m.arrange yAxis p parent) :=
      (n.sameContents_arrange yAxis p parent).symm.trans
        (hcontents.trans (m.sameContents_arrange yAxis p parent))
    refine hlaid.eq (fun axis => ?_) (layout_arrange n m yAxis p parent)
    by_cases hkeeps : n.Keeps p axis
    · rw [along_arrange_of_keeps (hcontents.keeps_iff.2 hkeeps), along_arrange_of_keeps hkeeps,
        hsides axis hkeeps]
    · rw [along_arrange_of_not_keeps (mt hcontents.keeps_iff.1 hkeeps),
        along_arrange_of_not_keeps hkeeps]

theorem arrange_arrange (n : Node) (yAxis yAxis' : YAxis) (p p' : Placement)
    (parent parent' : Option Size) :
    (n.arrange yAxis p parent).arrange yAxis' p' parent' =
      { n with size := (n.arrange yAxis p parent).size }.arrange yAxis' p' parent' :=
  (arrange_eq_arrange_iff _ _ _ _ _).2 ⟨⟨rfl, rfl, rfl, rfl, rfl⟩, fun _ _ => rfl⟩

theorem arrange_idempotent (n : Node) (yAxis : YAxis) (p : Placement) (parent : Option Size) :
    (n.arrange yAxis p parent).arrange yAxis p parent = n.arrange yAxis p parent :=
  (arrange_eq_arrange_iff _ _ _ _ _).2
    ⟨n.sameContents_arrange yAxis p parent, fun _ hkeeps => along_arrange_of_keeps hkeeps _ _⟩

/-- Layout leaves the contents of a node as they are. What it gives the node besides the size is
told by the attributes, the size of the parent and the direction of the vertical axis. A side is the
node's own when the node is a copy of a skin and none is declared; every other side is told by the
attributes and the parent. So nodes that agree in their contents and in the sides they keep are
laid out alike, of an earlier layout nothing is left but these sides, and a second one changes
nothing. -/
theorem layout_local {e e' : Element} (h : e'.attribute? = e.attribute?) (yAxis : YAxis)
    (parent : Option Size) (n m : Node) :
    n.SameContents (n.arrange yAxis (.ofElement e) parent) ∧
    (m.arrange yAxis (.ofElement e') parent).layout =
      (n.arrange yAxis (.ofElement e) parent).layout ∧
    (∀ axis, n.Keeps (.ofElement e) axis →
      (n.arrange yAxis (.ofElement e) parent).size.along axis = n.size.along axis) ∧
    (∀ axis, ¬n.Keeps (.ofElement e) axis →
      (n.arrange yAxis (.ofElement e) parent).size.along axis =
        (Placement.ofElement e').side parent axis) ∧
    (m.arrange yAxis (.ofElement e') parent = n.arrange yAxis (.ofElement e) parent ↔
      n.SameContents m ∧
        ∀ axis, n.Keeps (.ofElement e) axis → m.size.along axis = n.size.along axis) ∧
    (∀ (earlier : YAxis) (p : Placement) (outer : Option Size),
      (n.arrange earlier p outer).arrange yAxis (.ofElement e) parent =
        { n with size := (n.arrange earlier p outer).size }.arrange yAxis (.ofElement e) parent) ∧
    (n.arrange yAxis (.ofElement e) parent).arrange yAxis (.ofElement e') parent =
      n.arrange yAxis (.ofElement e) parent := by
  rw [Element.placement_congr h]
  refine ⟨n.sameContents_arrange yAxis _ parent, layout_arrange n m yAxis _ parent,
    fun axis hkeeps => along_arrange_of_keeps hkeeps yAxis parent,
    fun axis hkeeps => along_arrange_of_not_keeps hkeeps yAxis parent,
    arrange_eq_arrange_iff n m yAxis _ parent, fun earlier p outer => ?_,
    n.arrange_idempotent yAxis _ parent⟩
  exact n.arrange_arrange earlier yAxis p _ outer parent

/-- A copy of a skin and an element that declares its height alone. -/
theorem copy_keeps_width :
    let e : Element := { localName := "Panel", attributes := [("height", "12")] }
    let copy : Node := { name := "n", size := ⟨80, 30⟩, skin := some ⟨"db://assets/Skin.prefab"⟩ }
    (copy.arrange .anchorOffset (.ofElement e) none).size = ⟨80, 12⟩ ∧
      (copy.arrange .anchorOffset (.ofElement e) none).arrange .anchorOffset (.ofElement e) none =
        copy.arrange .anchorOffset (.ofElement e) none := by
  intro e copy
  obtain ⟨-, -, hkept, hgiven, -, -, htwice⟩ :=
    layout_local (rfl : e.attribute? = e.attribute?) .anchorOffset none copy copy
  have hwidth : copy.Keeps (.ofElement e) .horizontal := ⟨by decide +kernel, rfl⟩
  have hheight : ¬copy.Keeps (.ofElement e) .vertical := fun hkeeps => by
    have hnone : ((Placement.ofElement e).length? .vertical).isSome = false := by rw [hkeeps.1]; rfl
    exact absurd hnone (by decide +kernel)
  have hside : (Placement.ofElement e).side none .vertical = 12 := by decide +kernel
  refine ⟨?_, htwice⟩
  rw [Size.mk.injEq]
  exact ⟨hkept .horizontal hwidth, (hgiven .vertical hheight).trans hside⟩

end Node
end MarkupScene
